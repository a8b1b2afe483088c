import BranchTally.Dump.Basic

/-! The outcome of reading a dump: a value or a fault, and the attributes passed over on the way.
What comes out of a sequence of readings depends on the results alone. -/

namespace BranchTally.Dump

structure Reading (α : Type) where
  ignored : List UnknownAttribute
  result : Except LoadFault α

namespace Reading

instance : Monad Reading where
  pure a := ⟨[], .ok a⟩
  bind r f :=
    match r.result with
    | .ok a => ⟨r.ignored ++ (f a).ignored, (f a).result⟩
    | .error fault => ⟨r.ignored, .error fault⟩

def fail {α : Type} (line : Int) (flaw : Flaw) : Reading α := ⟨[], .error (.flawed line flaw)⟩

def ignore (u : UnknownAttribute) : Reading Unit := ⟨[u], .ok ()⟩

/-- A value that may be flawed, in a node on the given line. -/
def lift {α : Type} (line : Int) : Except Flaw α → Reading α
  | .ok a => pure a
  | .error flaw => fail line flaw

variable {α β γ : Type}

theorem bind_of_ok {r : Reading α} {a : α} (h : r.result = .ok a) (f : α → Reading β) :
    (r >>= f) = ⟨r.ignored ++ (f a).ignored, (f a).result⟩ := by
  obtain ⟨ignored, result⟩ := r
  obtain rfl : result = .ok a := h
  rfl

theorem bind_of_error {r : Reading α} {fault : LoadFault} (h : r.result = .error fault)
    (f : α → Reading β) : (r >>= f) = ⟨r.ignored, .error fault⟩ := by
  obtain ⟨ignored, result⟩ := r
  obtain rfl : result = .error fault := h
  rfl

theorem bind_pure (r : Reading α) : r >>= pure = r := by
  obtain ⟨ignored, fault | a⟩ := r
  · rfl
  · rw [bind_of_ok rfl]
    exact congrArg (mk · _) (List.append_nil ignored)

theorem bind_assoc (r : Reading α) (f : α → Reading β) (g : β → Reading γ) :
    (r >>= f) >>= g = r >>= fun a => f a >>= g := by
  cases h : r.result with
  | error fault =>
    rw [bind_of_error h, bind_of_error h]
    rfl
  | ok a =>
    rw [bind_of_ok h, bind_of_ok h]
    cases hf : (f a).result with
    | error fault => rw [bind_of_error hf, bind_of_error rfl]
    | ok b => rw [bind_of_ok hf, bind_of_ok rfl, List.append_assoc]

instance : LawfulMonad Reading :=
  LawfulMonad.mk' _ bind_pure (fun _ _ => rfl) bind_assoc

@[simp] theorem result_pure (a : α) : (pure a : Reading α).result = .ok a := rfl

@[simp] theorem result_bind (r : Reading α) (f : α → Reading β) :
    (r >>= f).result = r.result.bind fun a => (f a).result := by
  cases h : r.result <;> simp [bind, h, Except.bind]

@[simp] theorem result_fail (line : Int) (flaw : Flaw) :
    (fail line flaw : Reading α).result = .error (.flawed line flaw) := rfl

@[simp] theorem result_ignore (u : UnknownAttribute) : (ignore u).result = .ok () := rfl

@[simp] theorem result_lift_ok (line : Int) (a : α) : (lift line (.ok a)).result = .ok a := rfl

@[simp] theorem result_lift_error (line : Int) (flaw : Flaw) :
    (lift line (.error flaw) : Reading α).result = .error (.flawed line flaw) := rfl

end Reading

end BranchTally.Dump
