import RecordNode.Fabric.PinCalls

/-! # Turns and the gate

Whatever the calls do, those on one root come one after the other, and the work of
an eviction and the walk of a pin are never in the gate together. -/

namespace RecordNode

open Foundation

namespace PinGate

/-- Calls on one root are done in turn; `walking` counts the walks; the eviction in the gate is
the one `evicting` names, and past its wait there are no walks. -/
structure Gated (s : PinGate) : Prop where
  turns : ∀ (i j : ℕ) (a b : PinCall), s.calls[i]? = some a → s.calls[j]? = some b → j < i → a.root = b.root → a.root ≠ none →
    a.isQueued = false → b.isDone = true
  walks : s.walking = s.calls.countP PinCall.isWalking
  holder : ∀ (i : ℕ) (a : PinCall), s.calls[i]? = some a → a.isEvicting = true → s.evicting = some i
  clear : ∀ (i : ℕ) (a : PinCall), s.calls[i]? = some a → a.runsEviction = true → s.walking = 0

theorem isEvicting_of_runsEviction {a : PinCall} (h : a.runsEviction = true) : a.isEvicting = true := by
  unfold PinCall.runsEviction at h
  split at h
  · cases h
  · exact h

theorem lockFree_iff {s : PinGate} {i : ℕ} {root : Multihash} :
    s.lockFree i root = true ↔
      ∀ (j : ℕ) (b : PinCall), j < i → s.calls[j]? = some b → b.root = some root → b.isDone = true := by
  simp only [lockFree, List.all_eq_true, Bool.or_eq_true, decide_eq_true_eq]
  constructor
  · intro h j b hj hb hroot
    have hm : b ∈ s.calls.take i := by
      rw [List.mem_iff_getElem?]
      exact ⟨j, by rw [List.getElem?_take_of_lt hj, hb]⟩
    exact (h b hm).resolve_left fun hne => hne hroot
  · intro h b hb
    obtain ⟨j, hj⟩ := List.mem_iff_getElem?.mp hb
    by_cases hroot : b.root = some root
    · have hlt : j < i := by
        by_contra hge
        rw [List.getElem?_take_eq_none (by omega)] at hj
        cases hj
      rw [List.getElem?_take_of_lt hlt] at hj
      exact Or.inr (h j b hlt hj hroot)
    · exact Or.inl hroot

section Gate
variable {s t : PinGate} {i : ℕ} {old new : PinCall}

/-- Reading the calls after one of them has moved on. -/
theorem get_set_calls (hold : s.calls[i]? = some old) {j : ℕ} {a : PinCall}
    (h : (s.calls.set i new)[j]? = some a) : (j = i ∧ a = new) ∨ (j ≠ i ∧ s.calls[j]? = some a) := by
  have hlt : i < s.calls.length := (List.getElem?_eq_some_iff.mp hold).1
  rw [List.getElem?_set] at h
  by_cases hij : i = j
  · subst hij
    rw [if_pos rfl, if_pos hlt] at h
    exact Or.inl ⟨rfl, (Option.some_inj.mp h).symm⟩
  · rw [if_neg hij] at h
    exact Or.inr ⟨Ne.symm hij, h⟩

theorem countP_set_calls (hold : s.calls[i]? = some old) (new : PinCall) (p : PinCall → Bool) :
    (s.calls.set i new).countP p + (p old).toNat = s.calls.countP p + (p new).toNat := by
  obtain ⟨hlt, heq⟩ := List.getElem?_eq_some_iff.mp hold
  have hpos : p old = true → 0 < s.calls.countP p := fun hp =>
    List.countP_pos_iff.mpr ⟨old, List.mem_of_getElem? hold, hp⟩
  rw [List.countP_set hlt, heq]
  cases hp : p old with
  | false => cases p new <;> simp
  | true =>
    have := hpos hp
    cases p new <;> simp <;> omega

/-- A call that moves on keeps the turns and the gate, if it takes its own turn and is counted
in and out of the gate. -/
theorem Gated.move (h : Gated s) (hold : s.calls[i]? = some old) (hcalls : t.calls = s.calls.set i new)
    (hroot : new.root = old.root) (hdone : old.isDone = false ∨ new.isDone = true)
    (hturn : old.isQueued = true → new.isQueued = false → ∀ root, old.root = some root → s.lockFree i root = true)
    (hwalks : t.walking + old.isWalking.toNat = s.walking + new.isWalking.toNat)
    (hholder : new.isEvicting = true → t.evicting = some i)
    (hothers : ∀ (j : ℕ) (a : PinCall), j ≠ i → s.calls[j]? = some a → a.isEvicting = true → t.evicting = some j)
    (hclear : new.runsEviction = true → t.walking = 0)
    (hrest : ∀ (j : ℕ) (a : PinCall), j ≠ i → s.calls[j]? = some a → a.runsEviction = true → t.walking = 0) : Gated t where
  turns := by
    intro j k a b ha hb hkj hab hne hq
    rw [hcalls] at ha hb
    rcases get_set_calls hold ha with ⟨rfl, rfl⟩ | ⟨-, ha'⟩
    · rcases get_set_calls hold hb with ⟨rfl, -⟩ | ⟨-, hb⟩
      · omega
      · rw [hroot] at hab hne
        by_cases hoq : old.isQueued = true
        · obtain ⟨root, hr⟩ := Option.ne_none_iff_exists'.mp hne
          exact lockFree_iff.mp (hturn hoq hq root hr) k b hkj hb (hab.symm.trans hr)
        · exact h.turns j k old b hold hb hkj hab hne (by simpa using hoq)
    · rcases get_set_calls hold hb with ⟨rfl, rfl⟩ | ⟨-, hb⟩
      · rcases hdone with hd | hd
        · have := h.turns j k a old ha' hold hkj (hab.trans hroot) hne hq
          simp [hd] at this
        · exact hd
      · exact h.turns j k a b ha' hb hkj hab hne hq
  walks := by
    have := countP_set_calls hold new PinCall.isWalking
    rw [hcalls]
    have hw := h.walks
    omega
  holder := by
    intro j a ha he
    rw [hcalls] at ha
    rcases get_set_calls hold ha with ⟨rfl, rfl⟩ | ⟨hji, ha⟩
    · exact hholder he
    · exact hothers j a hji ha he
  clear := by
    intro j a ha he
    rw [hcalls] at ha
    rcases get_set_calls hold ha with ⟨rfl, rfl⟩ | ⟨hji, ha⟩
    · exact hclear he
    · exact hrest j a hji ha he

/-- A move that leaves the gate alone. -/
theorem Gated.moveOutside (h : Gated s) (hold : s.calls[i]? = some old) (hcalls : t.calls = s.calls.set i new)
    (hroot : new.root = old.root) (hdone : old.isDone = false ∨ new.isDone = true)
    (hturn : old.isQueued = true → new.isQueued = false → ∀ root, old.root = some root → s.lockFree i root = true)
    (hw : new.isWalking = old.isWalking) (hwalking : t.walking = s.walking) (hevicting : t.evicting = s.evicting)
    (hev : new.isEvicting = true → old.isEvicting = true)
    (hrun : new.runsEviction = true → old.runsEviction = true) : Gated t := by
  refine h.move hold hcalls hroot hdone hturn (by rw [hw, hwalking]) ?_ ?_ ?_ ?_
  · exact fun he => hevicting.trans (h.holder i old hold (hev he))
  · exact fun j a _ ha he => hevicting.trans (h.holder j a ha he)
  · exact fun he => hwalking.trans (h.clear i old hold (hrun he))
  · exact fun j a _ ha he => hwalking.trans (h.clear j a ha he)

/-- Two calls on one root are not under way together. -/
theorem Gated.exclusive (h : Gated s) {i j : ℕ} {a b : PinCall} (ha : s.calls[i]? = some a)
    (hb : s.calls[j]? = some b) (hij : i ≠ j) (hroot : a.root = b.root) (hne : a.root ≠ none)
    (haq : a.isQueued = false) (had : a.isDone = false) (hbq : b.isQueued = false) (hbd : b.isDone = false) :
    False := by
  rcases Nat.lt_or_gt_of_ne hij with hlt | hlt
  · have := h.turns j i b a hb ha hlt hroot.symm (hroot ▸ hne) hbq
    simp [had] at this
  · have := h.turns i j a b ha hb hlt hroot hne haq
    simp [hbd] at this

/-- A walk and the work of an eviction are never in the gate together. -/
theorem Gated.apart (h : Gated s) {i j : ℕ} {a b : PinCall} (ha : s.calls[i]? = some a) (hw : a.isWalking = true)
    (hb : s.calls[j]? = some b) (hr : b.runsEviction = true) : False := by
  have hz := h.clear j b hb hr
  rw [h.walks, List.countP_eq_zero] at hz
  exact hz a (List.mem_of_getElem? ha) hw

theorem Gated.append (h : Gated s) {call : PinCall} (hcalls : t.calls = s.calls ++ [call])
    (hq : call.root ≠ none → call.isQueued = true) (hw : call.isWalking = false) (he : call.isEvicting = false)
    (hwalking : t.walking = s.walking) (hevicting : t.evicting = s.evicting) : Gated t := by
  have hcase : ∀ {j : ℕ} {a : PinCall}, t.calls[j]? = some a → a = call ∨ s.calls[j]? = some a := by
    intro j a ha
    rw [hcalls, List.getElem?_append] at ha
    split at ha
    · exact Or.inr ha
    · exact Or.inl (List.mem_singleton.mp (List.mem_of_getElem? ha))
  refine ⟨?_, ?_, ?_, ?_⟩
  · intro i j a b ha hb hji hab hne haq
    rcases hcase ha with rfl | ha
    · simp [hq hne] at haq
    · rcases hcase hb with rfl | hb'
      · -- the new call is the last, so no other comes after it
        have hlt := (List.getElem?_eq_some_iff.mp ha).1
        rw [hcalls, List.getElem?_append_left (by omega)] at hb
        exact h.turns i j a b ha hb hji hab hne haq
      · exact h.turns i j a b ha hb' hji hab hne haq
  · rw [hwalking, hcalls, List.countP_append, h.walks]
    simp [hw]
  · intro i a ha hev
    rcases hcase ha with rfl | ha
    · simp [he] at hev
    · exact hevicting.trans (h.holder i a ha hev)
  · intro i a ha hr
    rcases hcase ha with rfl | ha
    · have := isEvicting_of_runsEviction hr
      simp [he] at this
    · exact hwalking.trans (h.clear i a ha hr)

theorem Gated.start (h : Gated s) (ht : s.start i = some t) : Gated t := by
  unfold PinGate.start at ht
  split at ht
  case h_1 cid recursive hc =>
    split at ht
    case isFalse => cases ht
    case isTrue hfree =>
      have hturn : ∀ root, (PinCall.pin cid recursive .queued).root = some root → s.lockFree i root = true := by
        rintro _ ⟨⟩
        exact hfree
      simp only at ht
      split at ht <;> obtain rfl := Option.some_inj.mp ht
      · exact h.moveOutside hc rfl rfl (Or.inl rfl) (fun _ _ => hturn) rfl rfl rfl nofun nofun
      · exact h.moveOutside hc rfl rfl (Or.inl rfl) (fun _ _ => hturn) rfl rfl rfl nofun nofun
  case h_2 cid hc =>
    split at ht
    case isFalse => cases ht
    case isTrue hfree =>
      have hturn : ∀ root, (PinCall.unpin cid .queued).root = some root → s.lockFree i root = true := by
        rintro _ ⟨⟩
        exact hfree
      split at ht <;> obtain rfl := Option.some_inj.mp ht
      · exact h.moveOutside hc rfl rfl (Or.inl rfl) (fun _ _ => hturn) rfl rfl rfl nofun nofun
      · exact h.moveOutside hc rfl rfl (Or.inl rfl) (fun _ _ => hturn) rfl rfl rfl nofun nofun
  case h_3 => cases ht

theorem Gated.gate (h : Gated s) (ht : s.gate i = some t) : Gated t := by
  unfold PinGate.gate at ht
  -- nobody has set `evicting`, so nobody is in the gate as an eviction
  have hfree : s.evicting = none → ∀ (j : ℕ) (a : PinCall), s.calls[j]? = some a → ¬ a.isEvicting = true := by
    intro hn j a ha he
    have := h.holder j a ha he
    simp [hn] at this
  split at ht
  case h_1 cid recursive kind awaited hc =>
    split at ht
    case h_1 hn =>
      obtain rfl := Option.some_inj.mp ht
      refine h.move hc rfl rfl (Or.inl rfl) nofun rfl nofun ?_ nofun ?_
      · exact fun j a _ ha he => absurd he (hfree hn j a ha)
      · exact fun j a _ ha hr => absurd (isEvicting_of_runsEviction hr) (hfree hn j a ha)
    case h_2 e hn =>
      split at ht
      · cases ht
      · obtain rfl := Option.some_inj.mp ht
        exact h.moveOutside hc rfl rfl (Or.inl rfl) nofun rfl rfl rfl nofun nofun
  case h_2 cid awaited hc =>
    split at ht
    case h_1 hn =>
      split at ht
      case isTrue hw =>
        obtain rfl := Option.some_inj.mp ht
        refine h.move hc rfl rfl (Or.inl rfl) nofun rfl (fun _ => rfl) ?_ nofun ?_
        · exact fun j a _ ha he => absurd he (hfree hn j a ha)
        · exact fun j a _ ha hr => h.clear j a ha hr
      case isFalse hw =>
        obtain rfl := Option.some_inj.mp ht
        refine h.move hc rfl rfl (Or.inl rfl) nofun rfl (fun _ => rfl) ?_ ?_ ?_
        · exact fun j a _ ha he => absurd he (hfree hn j a ha)
        · exact fun _ => Nat.eq_zero_of_not_pos hw
        · exact fun j a _ ha hr => h.clear j a ha hr
    case h_2 e hn =>
      split at ht
      · cases ht
      · obtain rfl := Option.some_inj.mp ht
        exact h.moveOutside hc rfl rfl (Or.inl rfl) nofun rfl rfl rfl nofun nofun
  case h_3 => cases ht

theorem Gated.visit (h : Gated s) {C : Contents} (ht : s.visit C i = some t) : Gated t := by
  unfold PinGate.visit at ht
  split at ht
  case h_1 cid recursive kind walk hc =>
    obtain ⟨r, -, rfl⟩ := Option.map_eq_some_iff.mp ht
    cases r with
    | ok next => exact h.moveOutside hc rfl rfl (Or.inl rfl) nofun rfl rfl rfl nofun nofun
    | error e => exact h.moveOutside hc rfl rfl (Or.inl rfl) nofun rfl rfl rfl nofun nofun
  case h_2 cid kind walk hc =>
    obtain ⟨r, -, rfl⟩ := Option.map_eq_some_iff.mp ht
    cases r with
    | ok next => exact h.moveOutside hc rfl rfl (Or.inl rfl) nofun rfl rfl rfl nofun nofun
    | error e => exact h.moveOutside hc rfl rfl (Or.inl rfl) nofun rfl rfl rfl nofun nofun
  case h_3 => cases ht

theorem Gated.visitFailed (h : Gated s) (ht : s.visitFailed i = some t) : Gated t := by
  unfold PinGate.visitFailed at ht
  split at ht
  case h_1 hc =>
    obtain rfl := Option.some_inj.mp ht
    exact h.moveOutside hc rfl rfl (Or.inl rfl) nofun rfl rfl rfl nofun nofun
  case h_2 hc =>
    obtain rfl := Option.some_inj.mp ht
    exact h.moveOutside hc rfl rfl (Or.inl rfl) nofun rfl rfl rfl nofun nofun
  case h_3 => cases ht

/-- A transaction changes the tables, the live pins and the batch alone. -/
theorem transaction_frame (s : PinGate) (limit : Option ℕ) (i : ℕ) (ok : Bool) (tables : PinTables)
    (live : LivePins) :
    (s.transaction limit i ok tables live).calls = s.calls ∧
      (s.transaction limit i ok tables live).walking = s.walking ∧
      (s.transaction limit i ok tables live).evicting = s.evicting ∧
      (s.transaction limit i ok tables live).stored = s.stored := by
  unfold transaction
  cases limit <;> cases ok <;> exact ⟨rfl, rfl, rfl, rfl⟩

theorem Gated.commit (h : Gated s) {limit : Option ℕ} {ok : Bool} (ht : s.commit limit i ok = some t) :
    Gated t := by
  unfold PinGate.commit at ht
  split at ht
  case h_1 cid recursive kind visited hc =>
    obtain rfl := Option.some_inj.mp ht
    obtain ⟨hcalls, hw, he, -⟩ := s.transaction_frame limit i ok
      (s.tables.countPin kind cid recursive visited.items) (s.live.set cid recursive)
    exact h.moveOutside hc (congrArg (List.set · i _) hcalls) rfl (Or.inl rfl) nofun rfl hw he nofun nofun
  case h_2 cid kind visited hc =>
    obtain rfl := Option.some_inj.mp ht
    obtain ⟨hcalls, hw, he, -⟩ := s.transaction_frame limit i ok (s.tables.countUnpin cid visited.items)
      (s.live.delete cid)
    exact h.moveOutside hc (congrArg (List.set · i _) hcalls) rfl (Or.inl rfl) nofun rfl hw he nofun nofun
  case h_3 => cases ht

/-- The waiting eviction goes on when the last walk has left. -/
theorem Gated.wake (h : Gated s) {cid : Cid} (hz : s.walking = 0) (hc : s.calls[i]? = some (.evict cid .waiting)) :
    Gated (s.setCall i (.evict cid .ready)) := by
  refine h.move hc rfl rfl (Or.inl rfl) nofun rfl ?_ ?_ (fun _ => hz) ?_
  · exact fun _ => h.holder i _ hc rfl
  · exact fun j a _ ha he => h.holder j a ha he
  · exact fun j a _ ha hr => h.clear j a ha hr

theorem Gated.leave (h : Gated s) (ht : s.leave i = some t) : Gated t := by
  unfold PinGate.leave at ht
  split at ht
  case h_1 cid recursive fulfilled hc =>
    obtain rfl := Option.some_inj.mp ht
    have hpos : 0 < s.walking := by
      rw [h.walks]
      exact List.countP_pos_iff.mpr ⟨_, List.mem_of_getElem? hc, rfl⟩
    have hout : Gated { s.setCall i (.pin cid recursive (.done fulfilled)) with walking := s.walking - 1 } := by
      refine h.move hc rfl rfl (Or.inl rfl) nofun (Nat.sub_add_cancel hpos) nofun ?_ nofun ?_
      · exact fun j a _ ha he => h.holder j a ha he
      · intro j a _ ha hr
        have := h.clear j a ha hr
        omega
    simp only [leaveWalk]
    split
    case isFalse => exact hout
    case isTrue hz =>
      split
      case h_1 => exact hout
      case h_2 e _ =>
        split
        case h_1 hw => exact hout.wake hz hw
        case h_2 => exact hout
  case h_2 cid hc =>
    obtain rfl := Option.some_inj.mp ht
    refine h.move hc rfl rfl (Or.inl rfl) nofun rfl nofun ?_ nofun ?_
    · -- the eviction that leaves was the one in the gate
      intro j a hj ha he
      exact absurd (Option.some_inj.mp ((h.holder j a ha he).symm.trans (h.holder i _ hc rfl))) hj
    · exact fun j a _ ha hr => h.clear j a ha hr
  case h_3 => cases ht

theorem Gated.evictStep (h : Gated s) (l : Label) (ht : s.evictStep l = some t) : Gated t := by
  unfold PinGate.evictStep at ht
  split at ht
  case h_1 =>
    split at ht
    case h_2 => cases ht
    case h_1 cid hc =>
      obtain rfl := Option.some_inj.mp ht
      split
      · exact h.moveOutside hc rfl rfl (Or.inl rfl) nofun rfl rfl rfl (fun _ => rfl) (fun _ => rfl)
      · exact h.moveOutside hc rfl rfl (Or.inl rfl) nofun rfl rfl rfl (fun _ => rfl) (fun _ => rfl)
  case h_2 =>
    split at ht
    case h_2 => cases ht
    case h_1 cid hc =>
      obtain rfl := Option.some_inj.mp ht
      split
      · exact h.moveOutside hc rfl rfl (Or.inl rfl) nofun rfl rfl rfl (fun _ => rfl) (fun _ => rfl)
      · exact h.moveOutside hc rfl rfl (Or.inl rfl) nofun rfl rfl rfl (fun _ => rfl) (fun _ => rfl)
  case h_3 =>
    split at ht
    case h_2 => cases ht
    case h_1 cid hc =>
      obtain rfl := Option.some_inj.mp ht
      exact h.moveOutside hc rfl rfl (Or.inl rfl) nofun rfl rfl rfl (fun _ => rfl) (fun _ => rfl)
  case h_4 =>
    split at ht
    case h_3 => cases ht
    case h_1 cid hc =>
      obtain rfl := Option.some_inj.mp ht
      exact h.moveOutside hc rfl rfl (Or.inl rfl) nofun rfl rfl rfl (fun _ => rfl) (fun _ => rfl)
    case h_2 cid hc =>
      obtain rfl := Option.some_inj.mp ht
      exact h.moveOutside hc rfl rfl (Or.inl rfl) nofun rfl rfl rfl (fun _ => rfl) (fun _ => rfl)
  case h_5 => cases ht

theorem Gated.step (h : Gated s) {C : Contents} {limit : Option ℕ} {l : Label} (ht : s.step C limit l = some t) :
    Gated t := by
  cases l with
  | pin cid recursive =>
    obtain rfl := Option.some_inj.mp ht
    exact h.append rfl (fun _ => rfl) rfl rfl rfl rfl
  | unpin cid =>
    obtain rfl := Option.some_inj.mp ht
    exact h.append rfl (fun _ => rfl) rfl rfl rfl rfl
  | evict cid =>
    obtain rfl := Option.some_inj.mp ht
    exact h.append rfl (fun hn => absurd rfl hn) rfl rfl rfl rfl
  | start i => exact h.start ht
  | gate i => exact h.gate ht
  | visit i => exact h.visit ht
  | visitFailed i => exact h.visitFailed ht
  | commit i ok => exact h.commit ht
  | leave i => exact h.leave ht
  | check i => exact h.evictStep (.check i) ht
  | lookup i => exact h.evictStep (.lookup i) ht
  | remove i => exact h.evictStep (.remove i) ht
  | evictFailed i => exact h.evictStep (.evictFailed i) ht
  | put m =>
    obtain rfl := Option.some_inj.mp ht
    exact ⟨h.turns, h.walks, h.holder, h.clear⟩
  | flush =>
    obtain rfl := Option.some_inj.mp ht
    exact ⟨h.turns, h.walks, h.holder, h.clear⟩

end Gate

end PinGate

end RecordNode
