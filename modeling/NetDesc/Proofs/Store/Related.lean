import Mathlib.Data.List.Forall2
import NetDesc.Store

namespace NetDesc

section Named

variable {α β : Type} {R : α → β → Prop}

/-- A name is in both lists or in neither. -/
theorem any_name_eq {xs : List (String × α)} {ys : List (String × β)}
    (h : List.Forall₂ (fun x y => x.1 = y.1) xs ys) (name : String) :
    xs.any (·.1 == name) = ys.any (·.1 == name) := by
  induction h with
  | nil => rfl
  | cons hxy _ ih => rw [List.any_cons, List.any_cons, hxy, ih]

/-- The same names are given to what is related. -/
theorem zip_names {xs : List α} {ys : List β} (h : List.Forall₂ R xs ys) (names : List String) :
    List.Forall₂ (fun x y => x.1 = y.1 ∧ R x.2 y.2) (names.zip xs) (names.zip ys) := by
  induction h generalizing names with
  | nil => rw [List.zip_nil_right, List.zip_nil_right]; exact .nil
  | cons hxy _ ih =>
    cases names with
    | nil => exact .nil
    | cons name names => exact .cons ⟨rfl, hxy⟩ (ih names)

end Named

variable {R : Member → Member → Prop}

namespace Record

variable {r k : Record}

theorem find?_rel
    (h : List.Forall₂ (fun x y => x.1 = y.1 ∧ R x.2 y.2) r.members.toList k.members.toList)
    (name : String) : Option.Rel R (r.find? name) (k.find? name) := by
  unfold find?
  rw [← Array.find?_toList, ← Array.find?_toList]
  generalize r.members.toList = xs at h ⊢
  generalize k.members.toList = ys at h ⊢
  induction h with
  | nil => exact .none
  | @cons x y xs ys hxy _ ih =>
    rw [List.find?_cons, List.find?_cons, hxy.1]
    split
    · exact .some hxy.2
    · exact ih

theorem contains_eq_of_rel {name : String} (h : Option.Rel R (r.find? name) (k.find? name)) :
    r.contains name = k.contains name := by
  unfold contains
  generalize r.find? name = x at h ⊢
  generalize k.find? name = y at h ⊢
  cases h <;> rfl

/-- Members that are related may be added under one name. -/
theorem add_rel
    (h : List.Forall₂ (fun x y => x.1 = y.1 ∧ R x.2 y.2) r.members.toList k.members.toList)
    (name : String) {m n : Member} (hmn : R m n) :
    List.Forall₂ (fun x y => x.1 = y.1 ∧ R x.2 y.2) (r.add name m).members.toList
      (k.add name n).members.toList := by
  unfold add
  rw [contains_eq_of_rel (find?_rel h name)]
  split
  · simp only [Array.toList_map, List.forall₂_map_left_iff, List.forall₂_map_right_iff]
    refine h.imp fun x y hxy => ?_
    rw [hxy.1]
    split
    · exact ⟨rfl, hmn⟩
    · exact hxy
  · simp only [Array.toList_push]
    exact List.rel_append h (.cons ⟨rfl, hmn⟩ .nil)

end Record

/-- A name is looked up in scope after scope, so it is enough to compare them one by one. Where
    the same names stand on both sides, a name is found on both or on neither. -/
theorem Store.find?_rel {s t : Store} {scope scope' : RecordId} {name : String}
    (h : List.Forall₂ (fun r k => Option.Rel R ((s.record r).find? name) ((t.record k).find? name))
      (scope :: (s.record scope).enclosing) (scope' :: (t.record scope').enclosing)) :
    Option.Rel R (s.find? scope name) (t.find? scope' name) := by
  unfold find?
  generalize scope :: (s.record scope).enclosing = scopes at h ⊢
  generalize scope' :: (t.record scope').enclosing = scopes' at h ⊢
  induction h with
  | nil => exact .none
  | @cons r k _ _ hrk _ ih =>
    rw [List.findSome?_cons, List.findSome?_cons]
    generalize (s.record r).find? name = x at hrk ⊢
    generalize (t.record k).find? name = y at hrk ⊢
    cases hrk with
    | some hxy => exact .some hxy
    | none => exact ih

end NetDesc
