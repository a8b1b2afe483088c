import BranchTally.Width

/-! What the trackers of a program have counted. The counts given for one tracker add up, and a
tracker that was given none has counted zero. -/

namespace BranchTally

abbrev TrackerId := Nat

/-- The counts given so far, the latest first. -/
structure Counters where
  entries : List (TrackerId × Int)
  deriving DecidableEq, Repr, Inhabited

namespace Counters

def empty : Counters := ⟨[]⟩

def add (c : Counters) (id : TrackerId) (n : Int) : Counters := ⟨(id, n) :: c.entries⟩

def ofList (entries : List (TrackerId × Int)) : Counters :=
  entries.foldl (fun c e => c.add e.1 e.2) empty

/-- The counts of both. -/
def append (a b : Counters) : Counters := ⟨a.entries ++ b.entries⟩

instance : Append Counters := ⟨append⟩

/-- The sum of the counts given for a tracker. -/
def total (c : Counters) (id : TrackerId) : Int :=
  c.entries.foldr (fun e n => if e.1 = id then e.2 + n else n) 0

/-- The count kept for a tracker. -/
def hits (w : Width) (c : Counters) (id : TrackerId) : Int := w.fit (c.total id)

/-- The number of trackers that were given a count. -/
def size (c : Counters) : Nat := (c.entries.map (·.1)).eraseDups.length

@[simp] theorem total_empty (id : TrackerId) : empty.total id = 0 := rfl

theorem total_add (c : Counters) (id other : TrackerId) (n : Int) :
    (c.add id n).total other = (if id = other then n else 0) + c.total other := by
  by_cases h : id = other <;> simp [total, add, h]

@[simp] theorem entries_append (a b : Counters) : (a ++ b).entries = a.entries ++ b.entries := rfl

theorem total_append (a b : Counters) (id : TrackerId) :
    (a ++ b).total id = a.total id + b.total id := by
  obtain ⟨es⟩ := a
  induction es with
  | nil => simp [total]
  | cons e es ih =>
    simp only [total, entries_append, List.cons_append, List.foldr_cons] at ih ⊢
    split <;> omega

/-- A tracker that was given no count has counted zero. -/
theorem total_of_not_mem {c : Counters} {id : TrackerId} (h : id ∉ c.entries.map (·.1)) :
    c.total id = 0 := by
  obtain ⟨es⟩ := c
  induction es with
  | nil => rfl
  | cons e es ih =>
    rw [List.map_cons, List.mem_cons, not_or] at h
    exact (if_neg (Ne.symm h.1)).trans (ih h.2)

/-- What holds of zero and of the trackers that were given a count holds of all trackers. -/
theorem forall_total {P : Int → Prop} {c : Counters} (h0 : P 0)
    (h : ∀ id ∈ c.entries.map (·.1), P (c.total id)) (id : TrackerId) : P (c.total id) := by
  by_cases hid : id ∈ c.entries.map (·.1)
  · exact h id hid
  · rwa [total_of_not_mem hid]

theorem hits_nonneg {w : Width} {c : Counters}
    (h : ∀ id ∈ c.entries.map (·.1), 0 ≤ c.hits w id) (id : TrackerId) : 0 ≤ c.hits w id :=
  forall_total (P := fun n => 0 ≤ w.fit n) (by cases w <;> decide) h id

end Counters

end BranchTally
