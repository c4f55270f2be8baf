/-!
# Finite sets in insertion order

An `OrderedSet` lists its members in the order in which they were inserted; inserting a member
again changes nothing.
-/

namespace LinearLayout

universe u

/-- Members in insertion order, none twice. -/
@[ext]
structure OrderedSet (κ : Type u) where
  /-- The members, oldest first. -/
  toList : List κ
  /-- No member occurs twice. -/
  nodup : toList.Nodup

namespace OrderedSet

variable {κ : Type u} [DecidableEq κ]

/-- The set without members. -/
def empty : OrderedSet κ :=
  ⟨[], List.nodup_nil⟩

instance : EmptyCollection (OrderedSet κ) :=
  ⟨empty⟩

instance : Inhabited (OrderedSet κ) :=
  ⟨empty⟩

/-- True of the set without members. -/
def isEmpty (s : OrderedSet κ) : Bool :=
  s.toList.isEmpty

/-- Membership. -/
def contains (s : OrderedSet κ) (k : κ) : Bool :=
  decide (k ∈ s.toList)

/-- Adds a member at the end unless it is there. -/
def insert (s : OrderedSet κ) (k : κ) : OrderedSet κ :=
  if h : k ∈ s.toList then s
  else
    ⟨s.toList ++ [k], by
      rw [List.nodup_append]
      refine ⟨s.nodup, by simp, fun a ha b hb => ?_⟩
      rw [List.mem_singleton] at hb
      exact fun hab => h (hb ▸ hab ▸ ha)⟩

/-- Removes a member; the others keep their order. -/
def erase (s : OrderedSet κ) (k : κ) : OrderedSet κ :=
  ⟨s.toList.erase k, s.nodup.erase k⟩

/-- Adds members in turn. -/
def insertAll (s : OrderedSet κ) (ks : List κ) : OrderedSet κ :=
  ks.foldl insert s

omit [DecidableEq κ] in
@[simp] theorem toList_empty :
    (∅ : OrderedSet κ).toList = [] :=
  rfl

@[simp] theorem contains_eq_true
    {s : OrderedSet κ} {k : κ} :
    s.contains k = true ↔ k ∈ s.toList := by
  simp [contains]

theorem toList_insert
    (s : OrderedSet κ) (k : κ) :
    (s.insert k).toList = if k ∈ s.toList then s.toList else s.toList ++ [k] := by
  unfold insert
  split <;> simp_all

@[simp] theorem mem_toList_insert
    {s : OrderedSet κ} {k i : κ} :
    i ∈ (s.insert k).toList ↔ i ∈ s.toList ∨ i = k := by
  rw [toList_insert]
  split
  · constructor
    · exact Or.inl
    · rintro (h | rfl) <;> assumption
  · simp

@[simp] theorem mem_toList_erase
    {s : OrderedSet κ} {k i : κ} :
    i ∈ (s.erase k).toList ↔ i ≠ k ∧ i ∈ s.toList :=
  s.nodup.mem_erase_iff

theorem insert_of_mem
    {s : OrderedSet κ} {k : κ}
    (h : k ∈ s.toList) :
    s.insert k = s :=
  dif_pos h

theorem erase_of_not_mem
    {s : OrderedSet κ} {k : κ}
    (h : k ∉ s.toList) :
    s.erase k = s :=
  OrderedSet.ext (List.erase_of_not_mem h)

@[simp] theorem mem_toList_insertAll
    {s : OrderedSet κ} {ks : List κ} {i : κ} :
    i ∈ (s.insertAll ks).toList ↔ i ∈ s.toList ∨ i ∈ ks := by
  induction ks generalizing s with
  | nil =>
      simp [insertAll]
  | cons k ks ih =>
      rw [insertAll, List.foldl_cons, ← insertAll, ih]
      simp [or_assoc]

end OrderedSet
end LinearLayout
