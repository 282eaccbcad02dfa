import RecordNode.AccessControl.Capability

/-! # Walking a capability chain

Citations of accepted capabilities lead strictly into the past, so the walk ends
on every grounded oplog and its result satisfies the recursive equation of the
source without any fuel. -/

namespace RecordNode

open Foundation

variable {o : Oplog}

theorem capabilityChainLoop_mono {n m : ℕ} {id : Option String} {l : List Hash}
    (h : capabilityChainLoop o n id = some l) (hnm : n ≤ m) : capabilityChainLoop o m id = some l := by
  induction n generalizing m id l with
  | zero => cases id with
    | none => simpa [capabilityChainLoop] using h
    | some hash => simp [capabilityChainLoop] at h
  | succ n ih => cases id with
    | none => simpa [capabilityChainLoop] using h
    | some hash =>
      obtain ⟨m, rfl⟩ : ∃ k, m = k + 1 := ⟨m - 1, by omega⟩
      rw [capabilityChainLoop] at h ⊢
      cases he : o.entries.get hash with
      | none => simpa [he] using h
      | some e =>
        simp only [he] at h ⊢
        split_ifs at h ⊢ with hcap hw
        · exact h
        · obtain ⟨rest, hr, hl⟩ := Option.map_eq_some_iff.mp h
          exact Option.map_eq_some_iff.mpr ⟨rest, ih hr (Nat.le_of_succ_le_succ hnm), hl⟩
        · exact h

/-- A walk that has visited distinct entries, each younger than the next, ends within
the number of entries. -/
theorem Grounded.capabilityChainLoop_ends (g : Grounded o) (n : ℕ) (visited : List Hash)
    (id : Option String) (hnodup : visited.Nodup) (hheld : ∀ x ∈ visited, o.Has x)
    (hbefore : ∀ h e, id = some h → o.entries.get h = some e → ∀ x ∈ visited, e.time < clockOf o x)
    (hn : o.entries.size + 1 ≤ visited.length + n) : ∃ l, capabilityChainLoop o n id = some l := by
  induction n generalizing visited id with
  | zero =>
    -- More distinct held entries than entries cannot have been visited.
    have hsub : visited ⊆ o.entries.keys := fun x hx => (o.entries.mem_keys_iff x).mpr (hheld x hx)
    have hle := (hnodup.subperm hsub).length_le
    rw [OrderedMap.keys, List.length_map] at hle
    change visited.length ≤ o.entries.size at hle
    omega
  | succ n ih => cases id with
    | none => exact ⟨[], rfl⟩
    | some hash =>
      rw [capabilityChainLoop]
      cases he : o.entries.get hash with
      | none => exact ⟨[], rfl⟩
      | some e =>
        dsimp only
        split
        · split
          · exact ⟨[hash], rfl⟩
          case isFalse hw =>
            have htime : clockOf o hash = e.time := by simp [clockOf, he]
            have hfresh : hash ∉ visited := fun hm =>
              absurd (hbefore hash e rfl he hash hm) (by omega)
            obtain ⟨l, hl⟩ := ih (hash :: visited) e.operation.capabilityId
              (List.nodup_cons.mpr ⟨hfresh, hnodup⟩)
              (fun x hx => by
                rcases List.mem_cons.mp hx with rfl | hx
                · exact ⟨e, he⟩
                · exact hheld x hx)
              (fun c ce hc hce x hx => by
                obtain ⟨c', ce', hc', hce', -, hp⟩ := g.cited hash e he (by simpa using hw)
                obtain rfl : c = c' := Option.some_inj.mp (hc.symm.trans hc')
                obtain rfl : ce = ce' := Option.some_inj.mp (hce.symm.trans hce')
                have hlt := g.time_lt_of_past he hp hce
                rcases List.mem_cons.mp hx with rfl | hx
                · omega
                · have := hbefore hash e rfl he x hx
                  omega)
              (by rw [List.length_cons]; omega)
            exact ⟨hash :: l, by simp [hl]⟩
        · exact ⟨[], rfl⟩

/-- Walking a chain terminates, and all fuel past the number of entries gives one result. -/
theorem Grounded.capabilityChainLoop_eq (g : Grounded o) (id : Option String) {n : ℕ}
    (hn : o.entries.size + 1 ≤ n) : capabilityChainLoop o n id = some (capabilityChain o id) := by
  obtain ⟨l, hl⟩ := g.capabilityChainLoop_ends (o.entries.size + 1) [] id List.nodup_nil
    (by simp) (by simp) (by simp)
  rw [capabilityChainLoop_mono hl hn, capabilityChain, hl, Option.getD_some]

theorem Grounded.capabilityChain_some (g : Grounded o) (hash : Hash) :
    capabilityChain o (some hash) =
      match o.entries.get hash with
      | none => []
      | some e =>
        if e.operation.isCapability then
          if isWriteListKey o e.signer then [hash]
          else hash :: capabilityChain o e.operation.capabilityId
        else [] := by
  have h := g.capabilityChainLoop_eq (some hash) (Nat.le_succ (o.entries.size + 1))
  rw [capabilityChainLoop] at h
  cases he : o.entries.get hash with
  | none => simpa [he] using h.symm
  | some e =>
    simp only [he, g.capabilityChainLoop_eq e.operation.capabilityId (Nat.le_refl _)] at h
    dsimp only
    split_ifs at h ⊢ with hcap hw
    · exact (Option.some_inj.mp h).symm
    · exact (Option.some_inj.mp h).symm
    · exact (Option.some_inj.mp h).symm

theorem isCapability_iff_capabilityRecord (e : VerifiedEntry) :
    (capabilityRecord (some e)).isSome = e.operation.isCapability := by
  unfold capabilityRecord Operation.isCapability
  simp only [Option.map_some]
  split <;> split <;> simp_all

/-- Induction along a chain: a root signed by the write list, or a link above the chain of
the capability it cites. -/
theorem Grounded.chain_induction (g : Grounded o) {motive : Hash → List Hash → Prop}
    (root : ∀ h e, o.entries.get h = some e → e.operation.isCapability = true →
      isWriteListKey o e.signer = true → motive h [h])
    (link : ∀ h e c, o.entries.get h = some e → e.operation.isCapability = true →
      isWriteListKey o e.signer = false → e.operation.capabilityId = some c → o.Past e.next c →
      motive c (capabilityChain o (some c)) → motive h (h :: capabilityChain o (some c)))
    {h : Hash} {e : VerifiedEntry} (he : o.entries.get h = some e)
    (hcap : e.operation.isCapability = true) : motive h (capabilityChain o (some h)) := by
  obtain ⟨t, ht⟩ : ∃ t, t = e.time := ⟨_, rfl⟩
  induction t using Nat.strong_induction_on generalizing h e with
  | _ t ih =>
    rw [g.capabilityChain_some h, he]
    dsimp only
    rw [if_pos hcap]
    cases hw : isWriteListKey o e.signer with
    | true => exact root h e he hcap hw
    | false =>
      obtain ⟨c, ce, hc, hce, hcecap, hp⟩ := g.cited h e he hw
      simp only [Bool.false_eq_true, if_false, hc]
      exact link h e c he hcap hw hc hp
        (ih ce.time (ht ▸ g.time_lt_of_past he hp hce) hce hcecap rfl)

/-- Every capability of a chain is held, is a capability, and lies in the past of any
entry whose past holds the first. -/
theorem Grounded.mem_chain (g : Grounded o) {h : Hash} {e : VerifiedEntry}
    (he : o.entries.get h = some e) (hcap : e.operation.isCapability = true) :
    ∀ x ∈ capabilityChain o (some h), (∃ xe, o.entries.get x = some xe ∧ xe.operation.isCapability = true) ∧
      ∀ next, o.Past next h → o.Past next x := by
  apply g.chain_induction (motive := fun h l => ∀ x ∈ l,
    (∃ xe, o.entries.get x = some xe ∧ xe.operation.isCapability = true) ∧
      ∀ next, o.Past next h → o.Past next x) ?_ ?_ he hcap
  · intro h e he hcap _ x hx
    rw [List.mem_singleton.mp hx]
    exact ⟨⟨e, he, hcap⟩, fun _ hp => hp⟩
  · intro h e c he hcap _ _ hp ih x hx
    rcases List.mem_cons.mp hx with rfl | hx
    · exact ⟨⟨e, he, hcap⟩, fun _ hn => hn⟩
    · exact ⟨(ih x hx).1, fun next hn => (ih x hx).2 next (hn.trans he hp)⟩

end RecordNode
