/-!
# Steps that may fail

A chain of steps succeeds exactly if each of them does, and otherwise its failure is that of the
first step that fails.  Proofs about a chain take it apart with these equivalences, one step at a
time.
-/

namespace Changelog.Steps

variable {ε ε' α β : Type}

theorem bind_eq_ok_iff {x : Except ε α} {f : α → Except ε β} {b : β} :
    (x >>= f) = .ok b ↔ ∃ a, x = .ok a ∧ f a = .ok b := by
  cases x <;> simp [bind, Except.bind]

theorem bind_eq_error_iff {x : Except ε α} {f : α → Except ε β} {e : ε} :
    (x >>= f) = .error e ↔ x = .error e ∨ ∃ a, x = .ok a ∧ f a = .error e := by
  cases x <;> simp [bind, Except.bind]

theorem map_eq_ok_iff {x : Except ε α} {f : α → β} {b : β} :
    x.map f = .ok b ↔ ∃ a, x = .ok a ∧ f a = b := by
  cases x <;> simp [Except.map]

theorem map_eq_error_iff {x : Except ε α} {f : α → β} {e : ε} :
    x.map f = .error e ↔ x = .error e := by
  cases x <;> simp [Except.map]

theorem mapError_eq_ok_iff {x : Except ε α} {f : ε → ε'} {a : α} :
    x.mapError f = .ok a ↔ x = .ok a := by
  cases x with
  | error cause => exact ⟨nofun, nofun⟩
  | ok b =>
      constructor
      · intro h
        exact congrArg Except.ok (Except.ok.inj h)
      · rintro ⟨⟩
        rfl

theorem mapError_eq_error_iff {x : Except ε α} {f : ε → ε'} {e : ε'} :
    x.mapError f = .error e ↔ ∃ cause, x = .error cause ∧ f cause = e := by
  cases x with
  | error cause =>
      constructor
      · intro h
        exact ⟨cause, rfl, Except.error.inj h⟩
      · rintro ⟨_, ⟨⟩, rfl⟩
        rfl
  | ok b => exact ⟨nofun, nofun⟩

theorem eq_ok_of_toOption {x : Except ε α} {a : α} (h : x.toOption = some a) : x = .ok a := by
  cases x with
  | error e => cases h
  | ok b => exact congrArg Except.ok (Option.some.inj h)

/-- Items that are read back one by one are read back together. -/
theorem mapM_map_eq_some (encode : α → β) {read : β → Option α}
    (h : ∀ a, read (encode a) = some a) (items : List α) :
    (items.map encode).mapM read = some items := by
  induction items with
  | nil => rfl
  | cons item items ih =>
      rw [List.map_cons, List.mapM_cons, h, ih]
      rfl

/-- A reader that accepts just what is encoded accepts just lists of it. -/
theorem mapM_eq_some_iff
    {encode : α → β} {read : β → Option α} (h : ∀ b a, read b = some a ↔ b = encode a)
    {items : List β} {results : List α} :
    items.mapM read = some results ↔ items = results.map encode := by
  constructor
  · intro hread
    induction items generalizing results with
    | nil =>
        obtain rfl := Option.some.inj hread
        rfl
    | cons item items ih =>
        rw [List.mapM_cons] at hread
        obtain ⟨first, hfirst, hread⟩ := Option.bind_eq_some_iff.mp hread
        obtain ⟨rest, hrest, hread⟩ := Option.bind_eq_some_iff.mp hread
        obtain rfl := Option.some.inj hread
        rw [(h item first).mp hfirst, ih hrest]
        rfl
  · rintro rfl
    exact mapM_map_eq_some encode (fun a => (h _ a).mpr rfl) results

end Changelog.Steps
