import NetDesc.Proofs.Recurrence.Construct

namespace NetDesc

namespace Design

/-- The members of `r` are the nodes `ids`, of which delays may still wait for their input. -/
structure Complete (d : Design) (r : RecordId) (ids : List NodeId) (s : Store) : Prop where
  member : List.Forall₂ (fun p k => s.MemberIs r p.1 k) d.nodes ids
  node : ∀ a n k, (a, n) ∈ d.nodes → s.MemberIs r a k → k < s.nodes.size ∧
    (s.Wired r a n (s.node k) ∨ s.Waits r a n (s.node k))

/-- The members among these nodes have all their inputs. -/
def TiedAll (d : Design) (r : RecordId) (ids : List NodeId) (s : Store) : Prop :=
  ∀ a n k, (a, n) ∈ d.nodes → s.MemberIs r a k → k ∈ ids → s.Wired r a n (s.node k)

end Design

namespace Store

variable {s t : Store} {r : RecordId} {a b : String} {n : NodeDesign} {k : NodeId} {c : CellId}

theorem name_of_wired_or_waits {x : Node} (h : s.Wired r a n x ∨ s.Waits r a n x) : x.name = a := by
  rcases h with ⟨ids, rfl, -⟩ | ⟨input, deltaT, c, -, rfl, -⟩ <;> rfl

/-- A cell waits for one member. -/
theorem Awaits.name_eq (h : s.Awaits r a c) (h' : s.Awaits r b c) : a = b := by
  obtain ⟨e, _, _, htask, he, -⟩ := h.task
  obtain ⟨e', _, _, htask', he', -⟩ := h'.task
  obtain rfl := (Task.evaluate.inj (htask.symm.trans htask')).1
  rw [he] at he'
  cases he'
  rfl

/-- Nodes may change meanwhile. -/
theorem Awaits.withNodes (h : s.Awaits r a c) (nodes : Array Node) :
    { s with nodes }.Awaits r a c := by
  obtain ⟨e, fields, path, htask, he, hsees⟩ := h.task
  exact ⟨h.inside, ⟨e, fields, path, htask, he, hsees.inside, hsees.ne, hsees.enclosing,
    hsees.free⟩, h.progress⟩

/-- The store after a pending cell has given `v`. -/
def given (s : Store) (c : CellId) (v : Value) : Store :=
  (s.setProgress c .running).setProgress c (.finished v)

section Given

variable (hpending : (s.cell c).progress = .pending) {v : Value}

include hpending

theorem lt_of_pending : c < s.cells.size := by
  by_contra hlt
  rw [cell_of_size_le (Nat.le_of_not_lt hlt)] at hpending
  cases hpending

theorem unfinished_of_running (v : Value) :
    ((s.setProgress c .running).cell c).progress ≠ .finished v := by
  rw [setProgress_running_iff.2 (.inl ⟨rfl, lt_of_pending hpending⟩)]
  rintro ⟨⟩

theorem MemberIs.given (h : s.MemberIs r a k) : (s.given c v).MemberIs r a k :=
  (h.setProgress (by simp [hpending])).setProgress (unfinished_of_running hpending)

/-- What waits goes on to wait, unless it has been given what it waits for. -/
theorem Awaits.given (hawaits : s.Awaits r a c) (hv : v.payload = .object (.node k))
    (hk : s.MemberIs r a k) {waiting : CellId} (h : s.Awaits r b waiting) :
    (s.given c v).Awaits r b waiting := by
  by_cases hne : c = waiting
  · subst hne
    obtain rfl := hawaits.name_eq h
    have hcell : (s.given c v).cell c = { s.cell c with progress := .finished v } := by
      simp [Store.given, setProgress_cell, h.inside]
    obtain ⟨e, fields, path, htask, he, hsees⟩ := h.task
    refine ⟨by simpa [Store.given] using h.inside, ⟨e, fields, path, ?_, he, ?_⟩, .inr ?_⟩
    · rw [hcell, htask]
    · exact (hsees.setProgress _).setProgress _
    · exact ⟨by simpa [Store.given] using h.inside, v, k, by rw [hcell], hv, hk.given hpending⟩
  · exact (h.setProgress (by simp [hpending]) hne).setProgress (unfinished_of_running hpending) hne

end Given

end Store

namespace Design.Complete

variable {d : Design} {r : RecordId} {ids tied : List NodeId} {s t : Store} {a : String}
  {n : NodeDesign} {k : NodeId}

/-- Nodes are named after their members. -/
theorem names_eq (h : d.Complete r ids s) : ids.map (fun k => (s.node k).name) = d.names := by
  have hnamed : List.Forall₂ (fun p k => (s.node k).name = p.1) d.nodes ids := by
    have hall := (List.forall₂_and_left _ _).2 ⟨fun p (hp : p ∈ d.nodes) => hp, h.member⟩
    exact hall.imp fun p k hk => Store.name_of_wired_or_waits (h.node p.1 p.2 k hk.1 hk.2).2
  rw [Design.names, ← List.forall₂_eq_eq_eq, List.forall₂_map_left_iff,
    List.forall₂_map_right_iff]
  exact hnamed.flip

theorem nodup (h : d.Complete r ids s) : ids.Nodup := by
  have hnames : (ids.map fun k => (s.node k).name).Nodup := by
    rw [h.names_eq]
    exact d.distinct
  exact .of_map _ hnames

theorem exists_member (h : d.Complete r ids s) (hk : k ∈ ids) :
    ∃ a n, (a, n) ∈ d.nodes ∧ s.MemberIs r a k := by
  have hall := (List.forall₂_and_left _ _).2 ⟨fun p (hp : p ∈ d.nodes) => hp, h.member⟩
  obtain ⟨⟨a, n⟩, -, ha, hmember⟩ := exists_right_of_forall₂ hall.flip hk
  exact ⟨a, n, ha, hmember⟩

theorem exists_node (h : d.Complete r ids s) (ha : a ∈ d.names) :
    ∃ k ∈ ids, s.MemberIs r a k := by
  obtain ⟨p, hp, rfl⟩ := List.mem_map.1 ha
  exact exists_right_of_forall₂ h.member hp

/-- A node is that of one member. -/
theorem eq_of_node (h : d.Complete r ids s) {b : String} {m : NodeDesign} (ha : (a, n) ∈ d.nodes)
    (hb : (b, m) ∈ d.nodes) (hk : s.MemberIs r a k) (hk' : s.MemberIs r b k) : b = a ∧ m = n := by
  have hname := Store.name_of_wired_or_waits (h.node a n k ha hk).2
  have hname' := Store.name_of_wired_or_waits (h.node b m k hb hk').2
  obtain rfl : b = a := hname'.symm.trans hname
  exact ⟨rfl, d.eq_of_name hb ha⟩

/-- The node of one member may get its input. -/
theorem tie (h : d.Complete r ids s) (htied : d.TiedAll r tied s) (ha : (a, n) ∈ d.nodes)
    (hk : s.MemberIs r a k) (hmember : ∀ b j, s.MemberIs r b j → t.MemberIs r b j)
    (hawaits : ∀ b c, s.Awaits r b c → t.Awaits r b c) (hsize : t.nodes.size = s.nodes.size)
    (hother : ∀ j, j ≠ k → t.node j = s.node j) (hwired : t.Wired r a n (t.node k)) :
    d.Complete r ids t ∧ d.TiedAll r (tied ++ [k]) t := by
  have hback {b m j} (hb : (b, m) ∈ d.nodes) (hj : t.MemberIs r b j) : s.MemberIs r b j := by
    obtain ⟨j', -, hj'⟩ := h.exists_node (List.mem_map_of_mem hb)
    rwa [hj.unique (hmember _ _ hj')]
  have hkeep {b m x} (hx : s.Wired r b m x) : t.Wired r b m x := by
    obtain ⟨inputs, rfl, hinputs⟩ := hx
    exact ⟨inputs, rfl, hinputs.imp hmember⟩
  refine ⟨⟨h.member.imp fun _ _ => hmember _ _, fun b m j hb hj => ?_⟩, fun b m j hb hj hmem => ?_⟩
  · obtain ⟨hlt, hnode⟩ := h.node b m j hb (hback hb hj)
    refine ⟨hsize ▸ hlt, ?_⟩
    by_cases hjk : j = k
    · subst hjk
      obtain ⟨rfl, rfl⟩ := h.eq_of_node ha hb hk (hback hb hj)
      exact .inl hwired
    · rw [hother j hjk]
      refine hnode.imp hkeep ?_
      rintro ⟨input, deltaT, c, hm, hx, hc⟩
      exact ⟨input, deltaT, c, hm, hx, hawaits _ _ hc⟩
  · by_cases hjk : j = k
    · subst hjk
      obtain ⟨rfl, rfl⟩ := h.eq_of_node ha hb hk (hback hb hj)
      exact hwired
    · rw [hother j hjk]
      have hold : j ∈ tied := by simpa [hjk] using hmem
      exact hkeep (htied b m j hb (hback hb hj) hold)

end Design.Complete

namespace Node

variable {ev : Evaluator} {depth : Nat} {d : Design} {r : RecordId} {E : Prop} {s : Store}
  {a : String} {n : NodeDesign} {k : NodeId} {c : CellId} {ids : List NodeId}

/-- A cell that waits for a member that has been computed gives its node. -/
theorem force_awaits_ends (h : s.Awaits r a c) (hk : s.MemberIs r a k)
    (hdepth : depth < ev.maxDepth) :
    (Program.force c).Ends ev depth s (fun t v => v.payload = .object (.node k) ∧
      (t = s ∨ (s.cell c).progress = .pending ∧ t = s.given c v)) E := by
  rcases h.progress with hpending | ⟨-, v, k', hv, hpayload, hk'⟩
  · obtain ⟨e, fields, path, htask, he, hsees⟩ := h.task
    obtain ⟨m, v, hm, hlt, hv, hpayload⟩ := hk
    obtain ⟨rest, hrest⟩ := hsees.enclosing
    have hne : c ≠ m.cell := by
      rintro rfl
      rw [hpending] at hv
      cases hv
    refine .force_pending hpending ?_
    rw [htask]
    refine .evaluate hdepth ?_
    rw [he]
    have hfound : (s.setProgress c .running).find? fields a = some m :=
      Store.find?_outside hrest hsees.free hm
    have hfinished : ((s.setProgress c .running).cell m.cell).progress = .finished v := by
      rwa [Store.setProgress_cell_of_ne hne]
    exact .lookup hfound _ (.force_finished hfinished ⟨hpayload, .inr ⟨hpending, rfl⟩⟩)
  · rw [hk.unique hk']
    exact .force_finished hv ⟨hpayload, .inl rfl⟩

/-- Finalizing a member leaves it with all its inputs, and other members as they were. -/
theorem finalize_ends (hs : d.Complete r ids s) {tied : List NodeId} (htied : d.TiedAll r tied s)
    (ha : (a, n) ∈ d.nodes) (hk : s.MemberIs r a k) (hdepth : depth < ev.maxDepth) :
    (finalize k).Ends ev depth s (fun t _ => d.Complete r ids t ∧ d.TiedAll r (tied ++ [k]) t)
      E := by
  refine .readNode ?_
  rcases (hs.node a n k ha hk).2 with hwired | ⟨input, deltaT, c, rfl, hnode, hawaits⟩
  · have hnone : (s.node k).pendingInput = none := by
      obtain ⟨inputs, hx, -⟩ := hwired
      rw [hx]
      rfl
    rw [hnone]
    exact .pure (hs.tie htied ha hk (fun _ _ h => h) (fun _ _ h => h) rfl (fun _ _ => rfl) hwired)
  · have hinput : input ∈ d.names := d.closed _ ha input List.mem_cons_self
    obtain ⟨i, -, hi⟩ := hs.exists_node hinput
    rw [hnode]
    refine .bind (force_awaits_ends hawaits hi hdepth) ?_
    rintro t v ⟨hv, ht⟩
    refine .check (Value.asNode_eq_ok hv) (.step ?_)
    have hsame : t.nodes = s.nodes := by
      rcases ht with rfl | ⟨-, rfl⟩ <;> rfl
    have hmember (b j) (hj : s.MemberIs r b j) : t.MemberIs r b j := by
      rcases ht with rfl | ⟨hpending, rfl⟩
      · exact hj
      · exact hj.given hpending
    have hawaits' (b w) (hw : s.Awaits r b w) (nodes) : { t with nodes }.Awaits r b w := by
      rcases ht with rfl | ⟨hpending, rfl⟩
      · exact hw.withNodes nodes
      · exact (hawaits.given hpending hv hi hw).withNodes nodes
    have hlt : k < t.nodes.size := hsame ▸ (hs.node a _ k ha hk).1
    have hold (j) : t.node j = s.node j := by simp only [Store.node, hsame]
    refine hs.tie htied ha hk hmember (fun b w hw => hawaits' b w hw _)
      (by simp [Access.perform, hsame]) ?_ ?_
    · intro j hj
      refine (Store.node_modify t _ k j).trans ?_
      rw [if_neg (not_and_of_not_left _ (Ne.symm hj)), hold]
    · refine ⟨[i], (Store.node_modify t _ k k).trans ?_, .cons (hmember _ _ hi) .nil⟩
      rw [if_pos ⟨rfl, hlt⟩, hold, hnode]
      rfl

end Node

namespace Network

variable {ev : Evaluator} {depth : Nat} {d : Design} {r : RecordId} {E : Prop} {s : Store}
  {ids tied : List NodeId}

/-- The inputs of a member are members. -/
theorem inputs_mem (hs : d.Complete r ids s) {a : String} {n : NodeDesign} {k i : NodeId}
    (ha : (a, n) ∈ d.nodes) (hwired : s.Wired r a n (s.node k)) (hi : i ∈ (s.node k).inputs) :
    i ∈ ids := by
  obtain ⟨inputs, hx, hinputs⟩ := hwired
  rw [hx] at hi
  obtain ⟨b, hb, hmember⟩ := exists_right_of_forall₂ hinputs.flip hi
  obtain ⟨i', hi', hmember'⟩ := hs.exists_node (d.closed _ ha b hb)
  rwa [Store.MemberIs.unique hmember hmember']

/-- What has been visited is not visited again. -/
theorem tie_visited_ends {work visited : List Object} (hwork : ∀ o ∈ work, o ∈ visited) :
    (Program.tie work visited).Ends ev depth s (fun t found => t = s ∧ found = visited) E := by
  induction work with
  | nil => exact .tie (.pure ⟨rfl, rfl⟩)
  | cons o work ih =>
    rw [List.forall_mem_cons] at hwork
    refine .tie ?_
    rw [tieStep, if_pos (List.contains_iff_mem.2 hwork.1)]
    exact ih hwork.2

/-- Tying visits the members in their order and leaves them with all their inputs. All members
    have been computed by then, so no delay waits for a cell that is being computed. -/
theorem tie_ends (hs : d.Complete r ids s) (htied : d.TiedAll r tied s) {rest : List NodeId}
    (hrest : tied ++ rest = ids) {more : List Object} (hmore : ∀ o ∈ more, o ∈ ids.map .node)
    (hdepth : depth < ev.maxDepth) :
    (Program.tie (rest.map .node ++ more) (tied.map .node)).Ends ev depth s (fun t found =>
      found = ids.map .node ∧ d.Complete r ids t ∧ d.TiedAll r ids t) E := by
  induction rest generalizing tied more s with
  | nil =>
    obtain rfl : tied = ids := by simpa using hrest
    refine (tie_visited_ends hmore).imp ?_ id
    rintro _ _ ⟨rfl, rfl⟩
    exact ⟨rfl, hs, htied⟩
  | cons k rest ih =>
    have hk : k ∈ ids := by simp [← hrest]
    have hnew : Object.node k ∉ tied.map Object.node := by
      have hnodup := hs.nodup
      rw [← hrest, List.nodup_append] at hnodup
      intro hmem
      obtain ⟨j, hj, hjk⟩ := List.mem_map.1 hmem
      cases hjk
      exact hnodup.2.2 k hj k List.mem_cons_self rfl
    obtain ⟨a, n, ha, hmember⟩ := hs.exists_member hk
    refine .tie ?_
    rw [List.map_cons, List.cons_append, tieStep, if_neg (by simpa using hnew)]
    refine .bind (Node.finalize_ends hs htied ha hmember hdepth) ?_
    rintro t - ⟨ht, htied'⟩
    refine .after ?_
    let visited := tied.map Object.node ++ [.node k]
    let found := (t.children (.node k)).filter (!visited.contains ·)
    have hmore' : ∀ o ∈ more ++ found, o ∈ ids.map .node := by
      intro o ho
      rcases List.mem_append.1 ho with ho | ho
      · exact hmore o ho
      · obtain ⟨i, hi, rfl⟩ := List.mem_map.1 (List.mem_of_mem_filter ho)
        obtain ⟨b, m, hb, hk'⟩ := ht.exists_member hk
        have hwired := htied' b m k hb hk' (by simp)
        exact List.mem_map_of_mem (inputs_mem ht hb hwired hi)
    have hnext := ih ht htied' (by simpa using hrest) hmore'
    rw [List.map_append, ← List.append_assoc] at hnext
    exact hnext

end Network

end NetDesc
