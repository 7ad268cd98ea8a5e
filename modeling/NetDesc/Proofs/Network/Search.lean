import NetDesc.Proofs.Network.Discovery

namespace NetDesc

namespace Store

/-- What is new in a list, without repetitions. -/
def fresh (visited frontier : List Object) : List Object :=
  (frontier.filter (!visited.contains ·)).eraseDups

/-- All objects that are found in so many rounds, in order. A round goes from the objects of one
    level to those of their children that have not been seen, so no queue is kept. -/
def search (s : Store) : (rounds : Nat) → (visited frontier : List Object) → List Object
  | 0, visited, _ => visited
  | rounds + 1, visited, frontier =>
    let level := fresh visited frontier
    s.search rounds (visited ++ level) (level.flatMap s.children)

section Fresh

variable {o : Object} {visited frontier : List Object}

theorem fresh_cons_of_mem (h : o ∈ visited) :
    fresh visited (o :: frontier) = fresh visited frontier := by
  simp [fresh, h]

theorem fresh_cons_of_not_mem (h : o ∉ visited) :
    fresh visited (o :: frontier) = o :: fresh (visited ++ [o]) frontier := by
  have hkeep : (!visited.contains o) = true := by simpa using h
  rw [fresh, List.filter_cons_of_pos (p := (!visited.contains ·)) hkeep, List.eraseDups_cons,
    List.filter_filter, fresh]
  congr 3
  funext p
  rw [Bool.eq_iff_iff]
  simp [and_comm]

end Fresh

theorem search_nil {s : Store} {visited : List Object} (rounds : Nat) :
    s.search rounds visited [] = visited := by
  induction rounds generalizing visited with
  | zero => rfl
  | succ rounds ih => simpa [search, fresh] using ih

namespace Discovers

variable {s : Store} {o : Object} {work next visited found : List Object}

/-- What was visited may be queued once more. -/
theorem insert (h : s.Discovers (work ++ next) visited found) (ho : o ∈ visited) :
    s.Discovers (work ++ o :: next) visited found := by
  generalize hqueue : work ++ next = queue at h
  induction h generalizing work next with
  | stop =>
    obtain ⟨rfl, rfl⟩ := List.append_eq_nil_iff.1 hqueue
    exact .skip (List.contains_iff_mem.2 ho) .stop
  | @skip p queue visited found hp hrest ih =>
    cases work with
    | nil =>
      rw [List.nil_append] at hqueue
      subst hqueue
      exact .skip (List.contains_iff_mem.2 ho) (.skip hp hrest)
    | cons q work =>
      rw [List.cons_append] at hqueue
      obtain ⟨rfl, rfl⟩ := List.cons.inj hqueue
      exact .skip hp (ih ho rfl)
  | @visit p queue visited found hp hrest ih =>
    cases work with
    | nil =>
      rw [List.nil_append] at hqueue
      subst hqueue
      exact .skip (List.contains_iff_mem.2 ho) (.visit hp hrest)
    | cons q work =>
      rw [List.cons_append] at hqueue
      obtain ⟨rfl, rfl⟩ := List.cons.inj hqueue
      have hlater := ih (List.mem_append_left _ ho) (List.append_assoc _ _ _).symm
      exact .visit hp (by simpa using hlater)

/-- It makes no difference whether children that were visited are queued. -/
theorem unfiltered {children : List Object}
    (h : s.Discovers (work ++ children.filter (!visited.contains ·)) visited found) :
    s.Discovers (work ++ children) visited found := by
  induction children generalizing work with
  | nil => exact h
  | cons c children ih =>
    by_cases hc : c ∈ visited
    · refine (ih ?_).insert hc
      simpa [hc] using h
    · rw [List.append_cons]
      refine ih ?_
      simpa [hc] using h

/-- Going through the objects of one level leads to the next one. -/
theorem level (h : s.Discovers (work ++ next) visited found) :
    s.Discovers (next ++ (fresh visited work).flatMap s.children) (visited ++ fresh visited work)
      found := by
  induction work generalizing next visited with
  | nil => simpa [fresh] using h
  | cons o work ih =>
    rw [List.cons_append] at h
    cases h with
    | skip ho hrest =>
      rw [fresh_cons_of_mem (List.contains_iff_mem.1 ho)]
      exact ih hrest
    | visit ho hrest =>
      have hnew : o ∉ visited := by simpa using ho
      have hlevel := hrest.unfiltered
      rw [List.append_assoc] at hlevel
      rw [fresh_cons_of_not_mem hnew]
      simpa using ih hlevel

/-- The walk with a queue finds what the search finds. -/
theorem search_eq {rounds : Nat} (h : s.Discovers work visited found)
    (hrounds : found.length ≤ visited.length + rounds) : s.search rounds visited work = found := by
  induction rounds generalizing work visited with
  | zero => exact h.visited_isPrefix.eq_of_length_le hrounds
  | succ rounds ih =>
    have hwork : s.Discovers (work ++ []) visited found := by simpa using h
    have hlevel := hwork.level
    rw [List.nil_append] at hlevel
    by_cases hlast : fresh visited work = []
    · rw [hlast] at hlevel
      cases hlevel
      simp [search, hlast, search_nil]
    · have := List.length_pos_iff.2 hlast
      exact ih hlevel (by simp only [List.length_append]; omega)

end Discovers

end Store

end NetDesc
