import NetDesc.Proofs.Store.Growth

namespace NetDesc

namespace Store

/-- The objects that can be reached from some roots through children. -/
inductive Reaches (s : Store) (roots : List Object) : Object → Prop
  | root {o : Object} (ho : o ∈ roots) : Reaches s roots o
  | child {o c : Object} (ho : Reaches s roots o) (hc : c ∈ s.children o) : Reaches s roots c

/-- The breadth-first walk through `work` that leaves out what was visited before. This is the
    walk that ties objects together, on a store that stands still. -/
inductive Discovers (s : Store) : (work visited found : List Object) → Prop
  | stop {visited : List Object} : Discovers s [] visited visited
  | skip {o : Object} {work visited found : List Object} (ho : visited.contains o = true)
      (hrest : Discovers s work visited found) : Discovers s (o :: work) visited found
  | visit {o : Object} {work visited found : List Object} (ho : visited.contains o = false)
      (hrest : Discovers s (work ++ (s.children o).filter (!(visited ++ [o]).contains ·))
        (visited ++ [o]) found) :
      Discovers s (o :: work) visited found

theorem Reaches.mono_roots {s : Store} {roots more : List Object} {o : Object}
    (ho : s.Reaches roots o) (hmore : ∀ r ∈ roots, s.Reaches more r) : s.Reaches more o := by
  induction ho with
  | root hr => exact hmore _ hr
  | child _ hc ih => exact .child ih hc

namespace Discovers

variable {s : Store} {work visited found : List Object}

/-- What was visited before stays in front. -/
theorem visited_isPrefix (h : s.Discovers work visited found) : visited <+: found := by
  induction h with
  | stop => exact List.prefix_refl _
  | skip _ _ ih => exact ih
  | visit _ _ ih => exact (List.prefix_append _ _).trans ih

theorem mem_of_visited (h : s.Discovers work visited found) {o : Object} (ho : o ∈ visited) :
    o ∈ found :=
  h.visited_isPrefix.subset ho

theorem mem_of_work (h : s.Discovers work visited found) : ∀ o ∈ work, o ∈ found := by
  induction h with
  | stop => intro o ho; cases ho
  | skip hskip hrest ih =>
    intro o ho
    rcases List.mem_cons.1 ho with rfl | ho
    · exact hrest.mem_of_visited (List.contains_iff_mem.1 hskip)
    · exact ih o ho
  | visit _ hrest ih =>
    intro o ho
    rcases List.mem_cons.1 ho with rfl | ho
    · exact hrest.mem_of_visited (by simp)
    · exact ih o (List.mem_append_left _ ho)

theorem nodup (h : s.Discovers work visited found) (hvisited : visited.Nodup) : found.Nodup := by
  induction h with
  | stop => exact hvisited
  | skip _ _ ih => exact ih hvisited
  | @visit o work visited found ho _ ih =>
    have hnew : o ∉ visited := by simpa using ho
    apply ih
    rw [List.nodup_append]
    refine ⟨hvisited, by simp, ?_⟩
    rintro a ha b hb rfl
    exact hnew (List.mem_singleton.1 hb ▸ ha)

/-- Children of what was visited are visited or still to be. -/
theorem children_mem (h : s.Discovers work visited found)
    (hopen : ∀ o ∈ visited, ∀ c ∈ s.children o, c ∈ visited ∨ c ∈ work) :
    ∀ o ∈ found, ∀ c ∈ s.children o, c ∈ found := by
  induction h with
  | stop =>
    intro o ho c hc
    rcases hopen o ho c hc with hmem | hmem
    · exact hmem
    · cases hmem
  | skip hskip _ ih =>
    apply ih
    intro o ho c hc
    rcases hopen o ho c hc with hmem | hmem
    · exact .inl hmem
    · rcases List.mem_cons.1 hmem with rfl | hmem
      · exact .inl (List.contains_iff_mem.1 hskip)
      · exact .inr hmem
  | @visit o work visited found _ _ ih =>
    apply ih
    intro p hp c hc
    by_cases hmem : c ∈ visited ++ [o]
    · exact .inl hmem
    · right
      rcases List.mem_append.1 hp with hp | hp
      · rcases hopen p hp c hc with h | h
        · exact absurd (List.mem_append_left _ h) hmem
        · rcases List.mem_cons.1 h with rfl | h
          · exact absurd (by simp) hmem
          · exact List.mem_append_left _ h
      · obtain rfl := List.mem_singleton.1 hp
        refine List.mem_append_right _ (List.mem_filter.2 ⟨hc, ?_⟩)
        simpa using hmem

/-- Whatever is found was visited before or can be reached from the work. -/
theorem reaches (h : s.Discovers work visited found) :
    ∀ o ∈ found, o ∈ visited ∨ s.Reaches work o := by
  induction h with
  | stop => exact fun o ho => .inl ho
  | skip _ _ ih =>
    intro o ho
    refine (ih o ho).imp_right fun h => h.mono_roots fun r hr => ?_
    exact .root (List.mem_cons_of_mem _ hr)
  | @visit o work visited found _ _ ih =>
    intro p hp
    rcases ih p hp with h | h
    · rcases List.mem_append.1 h with h | h
      · exact .inl h
      · exact .inr (.root (List.mem_singleton.1 h ▸ List.mem_cons_self))
    · refine .inr (h.mono_roots fun r hr => ?_)
      rcases List.mem_append.1 hr with hr | hr
      · exact .root (List.mem_cons_of_mem _ hr)
      · exact .child (.root List.mem_cons_self) (List.mem_filter.1 hr).1

/-- A walk that starts with nothing visited finds exactly what can be reached. -/
theorem mem_iff_reaches (h : s.Discovers work [] found) (o : Object) :
    o ∈ found ↔ s.Reaches work o := by
  constructor
  · intro ho
    rcases h.reaches o ho with hmem | hreach
    · cases hmem
    · exact hreach
  · intro ho
    induction ho with
    | root hr => exact h.mem_of_work _ hr
    | child _ hc ih => exact h.children_mem (by simp) _ ih _ hc

/-- The walk depends on the children of what it finds and on nothing else. -/
theorem congr {t : Store} (h : s.Discovers work visited found)
    (hchildren : ∀ o ∈ found, o ∉ visited → t.children o = s.children o) :
    t.Discovers work visited found := by
  induction h with
  | stop => exact .stop
  | skip hskip _ ih => exact .skip hskip (ih hchildren)
  | @visit o work visited found ho hrest ih =>
    have hfound : o ∈ found := hrest.mem_of_visited (by simp)
    have hnew : o ∉ visited := by simpa using ho
    refine .visit ho ?_
    rw [hchildren o hfound hnew]
    exact ih fun p hp hvisited => hchildren p hp fun hmem => hvisited (List.mem_append_left _ hmem)

end Discovers

end Store

end NetDesc
