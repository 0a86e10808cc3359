import ColumnStore.Failure

/-!
# Success of composed operations

An operation is a chain of steps, each of which can be refused or break off.
`bind_eq_ok` takes a successful chain apart into its successful steps, and the
`ok_` and `error_` lemmas run a chain whose first step is known.  Proofs about
an operation start from these and never open the chain itself.
-/

namespace ColumnStore

variable {ε α β : Type}

@[simp] theorem ok_bind (a : α) (f : α → Except ε β) : (Except.ok a >>= f) = f a := rfl

@[simp] theorem error_bind (e : ε) (f : α → Except ε β) :
    (Except.error e >>= f) = Except.error e := rfl

@[simp] theorem ok_map (f : α → β) (a : α) : (f <$> (Except.ok a : Except ε α)) = .ok (f a) := rfl

@[simp] theorem pure_eq_ok (a : α) : (pure a : Except ε α) = .ok a := rfl

@[simp] theorem throw_eq_error (e : ε) : (throw e : Except ε α) = .error e := rfl

/-- A chain succeeds exactly if its first step does and the rest does from
there. -/
theorem bind_eq_ok {x : Except ε α} {f : α → Except ε β} {b : β} :
    (x >>= f) = .ok b ↔ ∃ a, x = .ok a ∧ f a = .ok b := by
  cases x with
  | ok a => simp
  | error e => simp

/-- A result is mapped exactly if there is one. -/
theorem map_eq_ok {x : Except ε α} {f : α → β} {b : β} :
    (f <$> x) = .ok b ↔ ∃ a, x = .ok a ∧ f a = b := by
  cases x with
  | ok a => simp
  | error e => simp [Functor.map, Except.map]

/-- A chain succeeds if its first step does, and the rest from wherever that leads. -/
theorem exists_bind_ok {x : Except ε α} {f : α → Except ε β} (hx : ∃ a, x = .ok a)
    (hf : ∀ a, ∃ b, f a = .ok b) : ∃ b, (x >>= f) = .ok b := by
  obtain ⟨a, rfl⟩ := hx
  exact hf a

theorem exists_map_ok {x : Except ε α} {f : α → β} (hx : ∃ a, x = .ok a) :
    ∃ b, (f <$> x) = .ok b := by
  obtain ⟨a, rfl⟩ := hx
  exact ⟨f a, rfl⟩

theorem exists_of_isOk {x : Except ε α} (h : x.isOk = true) : ∃ a, x = .ok a := by
  cases x with
  | ok a => exact ⟨a, rfl⟩
  | error e => simp [Except.isOk, Except.toBool] at h

/-- A result that is known to be there is the one given in place of a default. -/
theorem eq_ok_of_isOk {x : Except ε α} (h : x.isOk = true) (default : α) :
    x = .ok (x.toOption.getD default) := by
  obtain ⟨a, rfl⟩ := exists_of_isOk h
  rfl

/-- A step for each element succeeds exactly if every one of them does. -/
theorem forM_eq_ok {l : List α} {f : α → Except ε Unit} :
    l.forM f = .ok () ↔ ∀ a ∈ l, f a = .ok () := by
  induction l with
  | nil => simp [List.forM]
  | cons a l ih =>
    show (f a >>= fun _ => l.forM f) = .ok () ↔ _
    rw [bind_eq_ok, List.forall_mem_cons, ← ih]
    exact ⟨fun ⟨_, ha, hl⟩ => ⟨ha, hl⟩, fun ⟨ha, hl⟩ => ⟨(), ha, hl⟩⟩

/-- Where a step for each element fails, it is the failure of one of them. -/
theorem exists_of_forM_eq_error {l : List α} {f : α → Except ε Unit} {e : ε}
    (h : l.forM f = .error e) : ∃ a ∈ l, f a = .error e := by
  induction l with
  | nil => exact nomatch h
  | cons a l ih =>
    have hchain : (f a >>= fun _ => l.forM f) = .error e := h
    cases hstep : f a with
    | error e' =>
      rw [hstep, error_bind] at hchain
      exact ⟨a, List.mem_cons_self, hstep.trans hchain⟩
    | ok _ =>
      rw [hstep, ok_bind] at hchain
      obtain ⟨b, hb, hfail⟩ := ih hchain
      exact ⟨b, List.mem_cons_of_mem a hb, hfail⟩

/-! ## Errors and faults as failures -/

@[simp] theorem liftM_error_ok (a : α) :
    (liftM (Except.ok a : Except Error α) : Outcome α) = .ok a := rfl

@[simp] theorem liftM_fault_ok (a : α) :
    (liftM (Except.ok a : Except Fault α) : Outcome α) = .ok a := rfl

@[simp] theorem liftM_error_error (e : Error) :
    (liftM (Except.error e : Except Error α) : Outcome α) = .error (.error e) := rfl

theorem liftM_error_eq_ok {x : Except Error α} {a : α} :
    (liftM x : Outcome α) = .ok a ↔ x = .ok a := by
  cases x with
  | ok b => simp
  | error e => simp

theorem liftM_fault_eq_ok {x : Except Fault α} {a : α} :
    (liftM x : Outcome α) = .ok a ↔ x = .ok a := by
  cases x with
  | ok b => simp
  | error f => simp

end ColumnStore
