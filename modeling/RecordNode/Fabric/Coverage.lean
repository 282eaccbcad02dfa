import RecordNode.Fabric.PinCalls

/-! # What a pin covers

A pin covers what its root reaches through the links of stored blocks, whatever
is stored at the moment. A walk that runs while blocks come and go visits exactly
that, each block at a moment when it is stored. -/

namespace RecordNode

open Foundation Relation

namespace Contents

variable (C : Contents)

/-- The CIDs under a block, as a walk finds them when it is stored. -/
def links (recursive : Bool) (cid : Cid) : Checked (List Cid) :=
  visitBlock C.decoders (fun cid => some (C.bytes cid.multihash)) (fun _ => true) recursive cid

def Leads (recursive : Bool) (a b : Cid) : Prop := ∃ links, C.links recursive a = .ok links ∧ b ∈ links

/-- The CIDs at or under a root, the root alone for a direct pin. -/
def Reaches (recursive : Bool) : Cid → Cid → Prop := ReflTransGen (C.Leads recursive)

open Classical in
noncomputable def covers (cid : Cid) (recursive : Bool) (m : Multihash) : Bool :=
  decide (∃ c, C.Reaches recursive cid c ∧ c.multihash = m)

variable {C}

theorem covers_iff {cid : Cid} {recursive : Bool} {m : Multihash} :
    C.covers cid recursive m = true ↔ ∃ c, C.Reaches recursive cid c ∧ c.multihash = m := by
  simp [covers]

theorem covers_direct (cid : Cid) (m : Multihash) : C.covers cid false m = true ↔ m = cid.multihash := by
  have hnone : ∀ a b, ¬ C.Leads false a b := by
    rintro a b ⟨links, hl, hb⟩
    obtain rfl : [] = links := Except.ok.inj hl
    cases hb
  rw [covers_iff]
  constructor
  · rintro ⟨c, hc, rfl⟩
    rcases ReflTransGen.cases_head hc with rfl | ⟨d, hd, -⟩
    · rfl
    · exact absurd hd (hnone _ _)
  · rintro rfl
    exact ⟨cid, .refl, rfl⟩

/-- A visit that succeeds sees a stored block and finds what is under it. -/
theorem visit_eq_ok {stored : OrderedSet Multihash} {recursive : Bool} {next : Cid} {links : List Cid}
    (h : C.visit stored recursive next = .ok links) :
    C.links recursive next = .ok links ∧ next.multihash ∈ stored := by
  unfold visit visitBlock at h
  unfold Contents.links visitBlock
  by_cases hs : stored.has next.multihash = true
  · have hm : next.multihash ∈ stored := (stored.has_iff _).mp hs
    simp only [hs, if_true] at h ⊢
    exact ⟨h, hm⟩
  · simp only [hs] at h
    split at h <;> simp at h

end Contents

/-- The CIDs in use. They name each multihash once, and a block in use names such CIDs. -/
structure Naming (C : Contents) where
  cids : Set Cid
  injOn : Set.InjOn Cid.multihash cids
  closed : ∀ recursive a b, a ∈ cids → C.Leads recursive a b → b ∈ cids

theorem Naming.reaches {C : Contents} (N : Naming C) {recursive : Bool} {a b : Cid} (ha : a ∈ N.cids)
    (h : C.Reaches recursive a b) : b ∈ N.cids := by
  induction h with
  | refl => exact ha
  | tail _ hbc ih => exact N.closed recursive _ _ ih hbc

/-- A walk has visited its root first, knows only what the root reaches, and still has to visit
what it has found and not seen. -/
structure WalkSound (C : Contents) (recursive : Bool) (cid : Cid) (w : BlockWalk) : Prop where
  begun : w = .start cid ∨ w.visited.items.head? = some cid
  reaches : ∀ c, c ∈ w.visited ∨ c ∈ w.work → C.Reaches recursive cid c
  closed : ∀ a ∈ w.visited, ∀ b, C.Leads recursive a b → b ∈ w.visited ∨ b ∈ w.work

namespace WalkSound

variable {C : Contents} {recursive : Bool} {cid : Cid} {w next : BlockWalk} {stored : OrderedSet Multihash}

theorem start : WalkSound C recursive cid (.start cid) where
  begun := Or.inl rfl
  reaches := by
    rintro c (hc | hc)
    · exact absurd hc (OrderedSet.mem_empty c)
    · obtain rfl := List.mem_singleton.mp hc
      exact .refl
  closed := fun a ha => absurd ha (OrderedSet.mem_empty a)

theorem visit (h : WalkSound C recursive cid w) (hv : w.visit C stored recursive = some (.ok next)) :
    WalkSound C recursive cid next ∧ ∀ c ∈ next.visited, c ∈ w.visited ∨ c.multihash ∈ stored := by
  obtain ⟨work, visited⟩ := w
  unfold BlockWalk.visit at hv
  split at hv
  case h_1 => cases hv
  case h_2 a rest heq =>
    obtain rfl : work = a :: rest := heq
    split at hv
    case isTrue hseen =>
      obtain rfl := Except.ok.inj (Option.some_inj.mp hv)
      refine ⟨⟨?_, fun c hc => h.reaches c (hc.imp_right (List.mem_cons_of_mem a)), ?_⟩, fun c hc => Or.inl hc⟩
      · rcases h.begun with hstart | hhead
        · obtain ⟨-, rfl⟩ := BlockWalk.mk.inj hstart
          exact absurd hseen (OrderedSet.mem_empty a)
        · exact Or.inr hhead
      · intro x hx b hb
        rcases h.closed x hx b hb with hb | hb
        · exact Or.inl hb
        · rcases List.mem_cons.mp hb with rfl | hb
          · exact Or.inl hseen
          · exact Or.inr hb
    case isFalse hnew =>
      cases hl : C.visit stored recursive a with
      | error e => simp [hl, Except.map] at hv
      | ok links =>
        obtain rfl : (⟨links ++ rest, visited.add a⟩ : BlockWalk) = next := by
          simpa [hl, Except.map] using hv
        obtain ⟨hlinks, hstored⟩ := Contents.visit_eq_ok hl
        have ha : C.Reaches recursive cid a := h.reaches a (Or.inr List.mem_cons_self)
        refine ⟨⟨Or.inr ?_, ?_, ?_⟩, ?_⟩
        · rw [OrderedSet.items_add hnew]
          rcases h.begun with hstart | hhead
          · obtain ⟨hwork, rfl⟩ := BlockWalk.mk.inj hstart
            exact congrArg some (List.head_eq_of_cons_eq hwork)
          · rw [List.head?_append, hhead]
            rfl
        · rintro c (hc | hc)
          · rcases (OrderedSet.mem_add _ _ _).mp hc with rfl | hc
            · exact ha
            · exact h.reaches c (Or.inl hc)
          · rcases List.mem_append.mp hc with hc | hc
            · exact ha.tail ⟨links, hlinks, hc⟩
            · exact h.reaches c (Or.inr (List.mem_cons_of_mem a hc))
        · intro x hx b hb
          rcases (OrderedSet.mem_add _ _ _).mp hx with rfl | hx
          · obtain ⟨links', hl', hb⟩ := hb
            obtain rfl := Except.ok.inj (hlinks.symm.trans hl')
            exact Or.inr (List.mem_append_left _ hb)
          · rcases h.closed x hx b hb with hb | hb
            · exact Or.inl ((OrderedSet.mem_add _ _ _).mpr (Or.inr hb))
            · rcases List.mem_cons.mp hb with rfl | hb
              · exact Or.inl ((OrderedSet.mem_add _ _ _).mpr (Or.inl rfl))
              · exact Or.inr (List.mem_append_right _ hb)
        · intro c hc
          rcases (OrderedSet.mem_add _ _ _).mp hc with rfl | hc
          · exact Or.inr hstored
          · exact Or.inl hc

/-- A walk with nothing left to visit has visited all that its root reaches. -/
theorem mem_iff {visited : OrderedSet Cid} (h : WalkSound C recursive cid ⟨[], visited⟩) (c : Cid) :
    c ∈ visited ↔ C.Reaches recursive cid c := by
  refine ⟨fun hc => h.reaches c (Or.inl hc), fun hc => ?_⟩
  induction hc with
  | refl =>
    rcases h.begun with hstart | hhead
    · cases (BlockWalk.mk.inj hstart).1
    · exact List.mem_of_head? hhead
  | tail _ hbc ih =>
    rcases h.closed _ ih _ hbc with hc | hc
    · exact hc
    · cases hc

theorem covered (N : Naming C) (hcid : cid ∈ N.cids) {visited : OrderedSet Cid}
    (h : WalkSound C recursive cid ⟨[], visited⟩) : Covered C.covers cid recursive visited.items where
  head := by
    rcases h.begun with hstart | hhead
    · cases (BlockWalk.mk.inj hstart).1
    · exact hhead
  once := by
    refine visited.nodup.map_on fun a ha b hb heq => N.injOn ?_ ?_ heq
    · exact N.reaches hcid ((h.mem_iff a).mp ha)
    · exact N.reaches hcid ((h.mem_iff b).mp hb)
  mem := by
    intro m
    rw [Contents.covers_iff, List.mem_map]
    exact exists_congr fun c => and_congr_left fun _ => h.mem_iff c

end WalkSound

end RecordNode
