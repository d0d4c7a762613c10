/-!
# Finite sets in one agreed order

A finite set is kept as the list of its members in strictly ascending order. Each set then has one
representation only: two sets with the same members are equal (`OrderedSet.ext`), so "the same
set" is plain equality, whatever the order in which the members came. Inserting a member that is
there already changes nothing, which is what removes repeats.
-/

namespace KeyPolicy

universe u

/-- A finite set, as the strictly ascending list of its members. -/
structure OrderedSet (α : Type u) [Ord α] where
  /-- The members, each once, in ascending order. -/
  toList : List α
  ascending : toList.Pairwise (fun a b => compare a b = .lt)

namespace OrderedSet

variable {α : Type u} [Ord α]

instance : Membership α (OrderedSet α) := ⟨fun s a => a ∈ s.toList⟩

@[simp] theorem mem_toList {s : OrderedSet α} {a : α} : a ∈ s.toList ↔ a ∈ s := Iff.rfl

instance [DecidableEq α] (s : OrderedSet α) (a : α) : Decidable (a ∈ s) :=
  inferInstanceAs (Decidable (a ∈ s.toList))

theorem eq_of_toList {s t : OrderedSet α} (h : s.toList = t.toList) : s = t := by
  cases s; cases t; cases h; rfl

instance [DecidableEq α] : DecidableEq (OrderedSet α) := fun s t =>
  decidable_of_iff (s.toList = t.toList) ⟨eq_of_toList, congrArg toList⟩

def empty : OrderedSet α := ⟨[], .nil⟩

instance : EmptyCollection (OrderedSet α) := ⟨empty⟩

instance : Inhabited (OrderedSet α) := ⟨empty⟩

@[simp] theorem not_mem_empty (a : α) : a ∉ (∅ : OrderedSet α) := List.not_mem_nil

def size (s : OrderedSet α) : Nat := s.toList.length

def isEmpty (s : OrderedSet α) : Bool := s.toList.isEmpty

def filter (p : α → Bool) (s : OrderedSet α) : OrderedSet α :=
  ⟨s.toList.filter p, s.ascending.filter p⟩

@[simp] theorem mem_filter {p : α → Bool} {s : OrderedSet α} {a : α} :
    a ∈ s.filter p ↔ a ∈ s ∧ p a = true :=
  List.mem_filter

/-! ## Insertion -/

/-- Put a member at its place in an ascending list, unless it is there. -/
def insertSorted (a : α) : List α → List α
  | [] => [a]
  | b :: bs =>
    match compare a b with
    | .lt => a :: b :: bs
    | .eq => b :: bs
    | .gt => b :: insertSorted a bs

variable [Std.LawfulEqOrd α]

theorem mem_insertSorted {a b : α} {l : List α} : b ∈ insertSorted a l ↔ b = a ∨ b ∈ l := by
  induction l with
  | nil => simp [insertSorted]
  | cons c cs ih =>
    unfold insertSorted
    split
    · simp
    · next h => cases Std.LawfulEqCmp.eq_of_compare h; simp
    · simp only [List.mem_cons, ih]; grind

variable [Std.TransOrd α]

theorem pairwise_insertSorted {a : α} {l : List α}
    (h : l.Pairwise (fun a b => compare a b = .lt)) :
    (insertSorted a l).Pairwise (fun a b => compare a b = .lt) := by
  induction l with
  | nil => simp [insertSorted]
  | cons c cs ih =>
    rw [List.pairwise_cons] at h
    unfold insertSorted
    split
    · next hac =>
      refine List.pairwise_cons.2 ⟨fun b hb => ?_, List.pairwise_cons.2 h⟩
      rcases List.mem_cons.1 hb with rfl | hb
      · exact hac
      · exact Std.TransCmp.lt_trans hac (h.1 b hb)
    · exact List.pairwise_cons.2 h
    · next hac =>
      refine List.pairwise_cons.2 ⟨fun b hb => ?_, ih h.2⟩
      rcases mem_insertSorted.1 hb with rfl | hb
      · exact Std.OrientedCmp.gt_iff_lt.1 hac
      · exact h.1 b hb

def insert (s : OrderedSet α) (a : α) : OrderedSet α :=
  ⟨insertSorted a s.toList, pairwise_insertSorted s.ascending⟩

@[simp] theorem mem_insert {s : OrderedSet α} {a b : α} : b ∈ s.insert a ↔ b = a ∨ b ∈ s :=
  mem_insertSorted

/-- The set with the members of a list added, one after the other. -/
def insertMany (s : OrderedSet α) (l : List α) : OrderedSet α := l.foldl insert s

@[simp] theorem insertMany_nil (s : OrderedSet α) : s.insertMany [] = s := rfl

@[simp] theorem insertMany_cons (s : OrderedSet α) (a : α) (l : List α) :
    s.insertMany (a :: l) = (s.insert a).insertMany l := rfl

theorem insertMany_append (s : OrderedSet α) (l l' : List α) :
    s.insertMany (l ++ l') = (s.insertMany l).insertMany l' :=
  List.foldl_append

@[simp] theorem mem_insertMany {s : OrderedSet α} {l : List α} {b : α} :
    b ∈ s.insertMany l ↔ b ∈ s ∨ b ∈ l := by
  induction l generalizing s with
  | nil => simp
  | cons a l ih => simp only [insertMany_cons, ih, mem_insert, List.mem_cons]; grind

def ofList (l : List α) : OrderedSet α := (∅ : OrderedSet α).insertMany l

@[simp] theorem mem_ofList {l : List α} {b : α} : b ∈ ofList l ↔ b ∈ l := by
  simp [ofList]

def union (s t : OrderedSet α) : OrderedSet α := s.insertMany t.toList

instance : Union (OrderedSet α) := ⟨union⟩

@[simp] theorem mem_union {s t : OrderedSet α} {b : α} : b ∈ s ∪ t ↔ b ∈ s ∨ b ∈ t :=
  mem_insertMany

/-! ## Members determine the set -/

omit [Std.LawfulEqOrd α] in
theorem nodup_toList (s : OrderedSet α) : s.toList.Nodup :=
  s.ascending.imp fun {a b} hab heq => by subst heq; simp at hab

omit [Std.LawfulEqOrd α] in
/-- **Sets with the same members are equal.** -/
@[ext] theorem ext {s t : OrderedSet α} (h : ∀ a, a ∈ s ↔ a ∈ t) : s = t := by
  apply eq_of_toList
  refine List.Perm.eq_of_pairwise ?_ s.ascending t.ascending
    ((List.perm_ext_iff_of_nodup s.nodup_toList t.nodup_toList).2 h)
  intro a b _ _ hab hba
  exact absurd hba (Std.OrientedCmp.not_lt_of_lt hab)

theorem ofList_append (l l' : List α) : ofList (l ++ l') = ofList l ∪ ofList l' := by
  ext a
  simp only [mem_ofList, mem_union, List.mem_append]

theorem size_ofList {l : List α} (h : l.Nodup) : (ofList l).size = l.length :=
  ((List.perm_ext_iff_of_nodup (nodup_toList _) h).2 fun _ => mem_ofList).length_eq

theorem ofList_filter_toList (p : α → Bool) (s : OrderedSet α) :
    ofList (s.toList.filter p) = s.filter p := by
  ext a
  rw [mem_ofList, List.mem_filter, mem_filter, mem_toList]

end OrderedSet

end KeyPolicy
