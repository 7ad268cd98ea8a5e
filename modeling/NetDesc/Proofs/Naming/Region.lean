import Mathlib.Data.List.Basic
import Mathlib.Data.Set.Lattice
import Mathlib.Order.CompletePartialOrder
import NetDesc.Evaluator

namespace NetDesc

/-- What may come after a path in another one: nothing, a segment or an index. -/
def Continuation : List Char → Prop
  | [] => True
  | c :: _ => c = '.' ∨ c = '['

/-- The names that may be given at a path: the path itself, and whatever continues it with a
    separator or an index. The empty path is that of the fields of a network: there are all names
    that do not start from the root of a tree. -/
def region (path : String) : Set String :=
  {name | if path = "" then name.toList.head? ≠ some '$'
    else ∃ rest, Continuation rest ∧ name.toList = path.toList ++ rest}

/-- The names that conditions may give which are evaluated at a path. -/
def aside (path : String) : Set String :=
  region (joinPath path "if")

/-- The names that the parts of an expression may give which is evaluated at a path. -/
def within (path : String) : Set String :=
  region path \ {path}

/-- The names that parts of these ids may give. -/
def regions (path : String) (ids : Set String) : Set String :=
  {name | ∃ id ∈ ids, name ∈ region (joinPath path id)}

theorem within_subset (path : String) : within path ⊆ region path :=
  fun _ h => h.1

theorem mem_region {path name : String} (h : path ≠ "") :
    name ∈ region path ↔ ∃ rest, Continuation rest ∧ name.toList = path.toList ++ rest := by
  simp [region, h]

theorem mem_region_empty {name : String} : name ∈ region "" ↔ name.toList.head? ≠ some '$' := by
  simp [region]

theorem mem_region_self (path : String) : path ∈ region path := by
  by_cases h : path = ""
  · subst h
    exact mem_region_empty.2 (by simp)
  · exact (mem_region h).2 ⟨[], trivial, by simp⟩

theorem singleton_subset_region (path : String) : {path} ⊆ region path := by
  rintro _ rfl
  exact mem_region_self _

/-- A tree is evaluated from a root whose names no network gives. -/
theorem region_root_disjoint : Disjoint (region "$") (region "") := by
  rw [Set.disjoint_left]
  intro name hroot hempty
  obtain ⟨rest, -, hname⟩ := (mem_region (by decide)).1 hroot
  exact mem_region_empty.1 hempty (by simp [hname])

/-- No continuation of the one id is one of the other, so the regions of parts that are called by
    them have nothing in common. -/
def IdsApart (a b : String) : Prop :=
  ∀ s t, Continuation s → Continuation t → a.toList ++ s ≠ b.toList ++ t

namespace IdsApart

variable {a b : String}

theorem symm (h : IdsApart a b) : IdsApart b a :=
  fun s t hs ht heq => h t s ht hs heq.symm

theorem of_head (ha : a ≠ "") (hb : b ≠ "") (h : a.toList.head? ≠ b.toList.head?) :
    IdsApart a b := by
  intro s t _ _ heq
  have hhead := congrArg List.head? heq
  rw [List.head?_append_of_ne_nil _ (by simpa using ha),
    List.head?_append_of_ne_nil _ (by simpa using hb)] at hhead
  exact h hhead

theorem append (p : String) (h : IdsApart a b) : IdsApart (p ++ a) (p ++ b) := by
  intro s t hs ht heq
  simp only [String.toList_append, List.append_assoc] at heq
  exact h s t hs ht (List.append_cancel_left heq)

end IdsApart

/-- A text in which nothing can be mistaken for what continues a path. -/
def Solid (id : String) : Prop :=
  ∀ c ∈ id.toList, c ≠ '.' ∧ c ≠ '['

instance (id : String) : Decidable (Solid id) :=
  List.decidableBAll (fun c => c ≠ '.' ∧ c ≠ '[') id.toList

/-- A solid text ends where the first character stands that may continue a path. -/
theorem takeWhile_solid {id : String} (h : Solid id) {rest : List Char}
    (hrest : Continuation rest) :
    (id.toList ++ rest).takeWhile (fun c => c ≠ '.' ∧ c ≠ '[') = id.toList := by
  rw [List.takeWhile_append_of_pos (by simpa [Solid] using h)]
  cases rest with
  | nil => simp
  | cons c rest =>
    rw [List.takeWhile_cons_of_neg (by rcases hrest with rfl | rfl <;> decide), List.append_nil]

theorem Solid.apart {a b : String} (ha : Solid a) (hb : Solid b) (h : a ≠ b) : IdsApart a b := by
  intro s t hs ht heq
  have hsame := congrArg (List.takeWhile fun c => c ≠ '.' ∧ c ≠ '[') heq
  rw [takeWhile_solid ha hs, takeWhile_solid hb ht] at hsame
  exact h (String.toList_injective hsame)

section JoinPath

variable {path a b id : String}

theorem joinPath_empty (id : String) : joinPath "" id = id := rfl

theorem joinPath_id (path : String) : joinPath path "" = path := by
  by_cases h : path = "" <;> simp [joinPath, h]

theorem toList_joinPath (hpath : path ≠ "") (hid : id ≠ "") :
    (joinPath path id).toList = path.toList ++ '.' :: id.toList := by
  simp [joinPath, hpath, hid, pathSeparator]

theorem joinPath_ne_empty (hid : id ≠ "") : joinPath path id ≠ "" := by
  by_cases hpath : path = ""
  · rwa [hpath]
  · intro h
    have := toList_joinPath hpath hid
    simp [h] at this

theorem region_joinPath_disjoint (ha : a ≠ "") (hb : b ≠ "") (h : IdsApart a b) :
    Disjoint (region (joinPath path a)) (region (joinPath path b)) := by
  rw [Set.disjoint_left]
  intro name hname hname'
  obtain ⟨s, hs, hs'⟩ := (mem_region (joinPath_ne_empty ha)).1 hname
  obtain ⟨t, ht, ht'⟩ := (mem_region (joinPath_ne_empty hb)).1 hname'
  rw [hs'] at ht'
  by_cases hpath : path = ""
  · subst hpath
    exact h s t hs ht ht'
  · rw [toList_joinPath hpath ha, toList_joinPath hpath hb, List.append_assoc,
      List.append_assoc] at ht'
    exact h s t hs ht (List.cons.inj (List.append_cancel_left ht')).2

theorem region_joinPath_subset (hid : id ≠ "") (hbelow : id.toList.head? ≠ some '$') :
    region (joinPath path id) ⊆ region path := by
  intro name hname
  obtain ⟨rest, hrest, heq⟩ := (mem_region (joinPath_ne_empty hid)).1 hname
  by_cases hpath : path = ""
  · subst hpath
    rw [mem_region_empty, heq, joinPath_empty, List.head?_append_of_ne_nil _ (by simpa using hid)]
    exact hbelow
  · rw [toList_joinPath hpath hid, List.append_assoc] at heq
    exact (mem_region hpath).2 ⟨'.' :: id.toList ++ rest, Or.inl rfl, heq⟩

theorem not_mem_region_joinPath (hid : id ≠ "") : path ∉ region (joinPath path id) := by
  intro hname
  obtain ⟨rest, -, heq⟩ := (mem_region (joinPath_ne_empty hid)).1 hname
  have hlength := congrArg List.length heq
  by_cases hpath : path = ""
  · subst hpath
    have := List.length_pos_iff.2 (show id.toList ≠ [] by simpa using hid)
    simp only [joinPath_empty, List.length_append, String.toList_empty, List.length_nil] at hlength
    omega
  · rw [toList_joinPath hpath hid] at hlength
    simp only [List.length_append, List.length_cons] at hlength
    omega

end JoinPath

/-- What a part of an expression that is no condition may be called. -/
structure PartId (id : String) : Prop where
  ne_empty : id ≠ ""
  below : id.toList.head? ≠ some '$'
  apart : IdsApart id "if"

namespace PartId

theorem of_solid {id : String} (hne : id ≠ "") (hbelow : id.toList.head? ≠ some '$')
    (hsolid : Solid id) (h : id ≠ "if") : PartId id where
  ne_empty := hne
  below := hbelow
  apart := hsolid.apart (by decide) h

/-- What stands in brackets is the id of an operand or of a function's body. -/
theorem of_bracket {id : String} (h : id.toList.head? = some '[') : PartId id where
  ne_empty := by
    rintro rfl
    simp at h
  below := by simp [h]
  apart := .of_head (by rintro rfl; simp at h) (by decide) (by simp [h])

variable {path id : String} (h : PartId id)

include h

theorem region_subset : region (joinPath path id) ⊆ region path :=
  region_joinPath_subset h.ne_empty h.below

theorem region_within : region (joinPath path id) ⊆ within path := by
  rintro name hname
  refine ⟨h.region_subset hname, ?_⟩
  rintro rfl
  exact not_mem_region_joinPath h.ne_empty hname

theorem not_mem_region : path ∉ region (joinPath path id) :=
  fun hname => (h.region_within hname).2 rfl

theorem region_disjoint_aside : Disjoint (region (joinPath path id)) (aside path) :=
  region_joinPath_disjoint h.ne_empty (by decide) h.apart

end PartId

/-- The conditions of an expression are among its parts. -/
theorem aside_subset (path : String) : aside path ⊆ region path :=
  region_joinPath_subset (by decide) (by decide)

theorem not_mem_aside (path : String) : path ∉ aside path :=
  not_mem_region_joinPath (by decide)

theorem aside_within (path : String) : aside path ⊆ within path := by
  rintro name hname
  refine ⟨aside_subset path hname, ?_⟩
  rintro rfl
  exact not_mem_aside name hname

section Regions

variable {path : String} {ids : Set String}

theorem region_subset_regions {id : String} (hid : id ∈ ids) :
    region (joinPath path id) ⊆ regions path ids :=
  fun _ hname => ⟨id, hid, hname⟩

theorem regions_within (h : ∀ id ∈ ids, PartId id) : regions path ids ⊆ within path :=
  fun _ ⟨id, hid, hname⟩ => (h id hid).region_within hname

theorem region_disjoint_regions {id : String} (hid : id ≠ "")
    (h : ∀ other ∈ ids, other ≠ "" ∧ IdsApart id other) :
    Disjoint (region (joinPath path id)) (regions path ids) := by
  rw [Set.disjoint_left]
  rintro name hname ⟨other, hother, hname'⟩
  obtain ⟨hne, hapart⟩ := h other hother
  exact Set.disjoint_left.1 (region_joinPath_disjoint hid hne hapart) hname hname'

end Regions

end NetDesc
