import NetDesc.Proofs.Arity.Throughout
import NetDesc.Proofs.Network.Search

namespace NetDesc

namespace Network

/-- Finalizes an object if it is a node. -/
def finalizeObject : Object → Program Unit
  | .node id => Node.finalize id
  | _ => return ()

section Step

variable {o : Object} {work visited : List Object}

theorem tieStep_skip (h : visited.contains o = true) :
    tieStep (o :: work) visited = Program.tie work visited :=
  if_pos h

theorem tieStep_visit (h : visited.contains o = false) :
    tieStep (o :: work) visited = (do
      finalizeObject o
      let children ← Program.children o
      Program.tie (work ++ children.filter (!(visited ++ [o]).contains ·)) (visited ++ [o])) := by
  unfold tieStep
  dsimp only
  rw [if_neg (Bool.eq_false_iff.1 h)]
  cases o <;> rfl

theorem finalizeObject_ensures {base : Nat} {s : Store} (ho : o.Valid s) :
    (finalizeObject o).Ensures base s fun _ t _ =>
      ∀ id, o = .node id → (t.node id).pendingInput = none := by
  cases o with
  | node id =>
    refine (Node.finalize_ensures ho).imp ?_
    rintro b t - - - - htied _ ⟨⟩
    exact htied
  | network id => exact .pure (by simp)
  | action id => exact .pure (by simp)

end Step

end Network

/-- The program runs without doing anything: no cell is accessed and nothing else happens, and the
    store stays as it is all the time. -/
structure Program.Idle {α : Type} (ev : Evaluator) (fuel depth : Nat) (p : Program α) (s : Store)
    (result : α) : Prop where
  run : p.run (ev.carryOut fuel depth) s = .value result s
  history : p.history (ev.carryOut fuel depth) (ev.history fuel depth) s = []
  passes : ∀ t, p.Passes (ev.carryOut fuel depth) (ev.Passes fuel depth) s t → t = s

namespace Program.Idle

variable {α : Type} {ev : Evaluator} {fuel depth : Nat} {s : Store} {result : α}

theorem done : (Program.done result).Idle ev fuel depth s result where
  run := rfl
  history := rfl
  passes t ht := by
    cases ht
    rfl

theorem access {a : Access} {next : a.Reply → Program α} (hstays : (a.perform s).2 = s)
    (hhistory : a.history s = []) (h : (next (a.perform s).1).Idle ev fuel depth s result) :
    (Program.access a next).Idle ev fuel depth s result where
  run := by
    change (next (a.perform s).1).run _ (a.perform s).2 = _
    rw [hstays]
    exact h.run
  history := by
    rw [Program.history, hstays, hhistory]
    exact h.history
  passes t ht := by
    cases ht with
    | start => rfl
    | access ht =>
      rw [hstays] at ht
      exact h.passes t ht

/-- To tie what a step of tying does without doing anything. -/
theorem tie {work visited found : List Object}
    (h : (Network.tieStep work visited).Idle ev fuel depth s found) :
    (Program.tie work visited).Idle ev (fuel + 1) depth s found where
  run := (Program.run_call _ _ s).trans h.run
  history := by
    have hcall : ev.carryOut (fuel + 1) depth (.tie work visited) s = .value found s := h.run
    have hinside : ev.history (fuel + 1) depth (.tie work visited) s = [] := h.history
    change (Program.call (.tie work visited) Program.done).history _ _ s = []
    rw [Program.history, hinside, hcall]
    rfl
  passes t ht := by
    cases ht with
    | start => rfl
    | inside ht => exact h.passes t ht
    | reply hreply ht =>
      have hcall : ev.carryOut (fuel + 1) depth (.tie work visited) s = .value found s := h.run
      rw [hcall] at hreply
      cases hreply
      cases ht
      rfl

end Program.Idle

namespace Network

variable {ev : Evaluator} {fuel depth : Nat} {s : Store} {o : Object}
  {work visited found : List Object}

/-- To visit an object that is finalized changes nothing. Objects are finalized before their
    children are read, so the walk goes through the graph that it leaves behind. -/
theorem tieStep_idle
    (h : (Program.tie (work ++ (s.children o).filter (!(visited ++ [o]).contains ·))
      (visited ++ [o])).Idle ev fuel depth s found)
    (ho : visited.contains o = false)
    (htied : ∀ id, o = .node id → (s.node id).pendingInput = none) :
    (tieStep (o :: work) visited).Idle ev fuel depth s found := by
  rw [tieStep_visit ho]
  have hrest : (Program.children o >>= fun children =>
      Program.tie (work ++ children.filter (!(visited ++ [o]).contains ·)) (visited ++ [o])).Idle ev
        fuel depth s found :=
    .access (a := .children o) rfl rfl h
  cases o with
  | node id =>
    have hnode : ((Access.readNode id).perform s).1.pendingInput = none := htied id rfl
    refine .access (a := .readNode id) rfl rfl ?_
    -- that the node waits for nothing decides what is left of its finalization
    generalize ((Access.readNode id).perform s).1 = node at hnode ⊢
    cases node
    cases hnode
    exact hrest
  | network id => exact hrest
  | action id => exact hrest

end Network

namespace Evaluator

variable {ev : Evaluator} {fuel depth : Nat} {s t : Store} {work visited found : List Object}

theorem run_tie {carryOut : (c : Call) → Store → Outcome c.Reply} :
    (Program.tie work visited).run carryOut s = carryOut (.tie work visited) s :=
  Program.run_call carryOut (.tie work visited) s

/-- When objects have been tied together, tying them together once more does nothing and finds the
    same. As much fuel as the first time is enough. -/
theorem tie_again (hr : ev.registry.Sound) (hs : s.WellFormed s.records.size)
    (hvalid : ∀ o ∈ work ++ visited, o.Valid s)
    (h : (ev.carryOut fuel depth (.tie work visited) s : Outcome (List Object)) = .value found t)
    (again : Evaluator) {more : Nat} (hmore : fuel ≤ more) (deep : Nat) :
    (Program.tie work visited).Idle again more deep t found := by
  induction fuel generalizing s work visited more with
  | zero =>
    rw [carryOut_zero] at h
    cases h
  | succ fuel ih =>
    obtain ⟨more, rfl⟩ : ∃ n, more = n + 1 := ⟨more - 1, by omega⟩
    have hless : fuel ≤ more := by omega
    refine .tie ?_
    change (Network.tieStep work visited).run (ev.carryOut fuel depth) s = _ at h
    cases work with
    | nil =>
      cases h
      exact .done
    | cons o work =>
      by_cases ho : visited.contains o = true
      · rw [Network.tieStep_skip ho] at h ⊢
        exact ih hs (fun p hp => hvalid p (List.mem_cons_of_mem _ hp)) (run_tie.symm.trans h) hless
      · rw [Bool.not_eq_true] at ho
        have hobject : o.Valid s := hvalid o List.mem_cons_self
        have hkept := Program.Ensures.run (carryOut_promised hr fuel depth) hs
          (Network.finalizeObject_ensures hobject)
        rw [Network.tieStep_visit ho, Program.run_bind] at h
        cases hfinal : (Network.finalizeObject o).run (ev.carryOut fuel depth) s with
        | value _ u =>
          rw [hfinal] at h hkept
          obtain ⟨hu, hsu, htied⟩ := hkept
          change (Program.tie (work ++ (u.children o).filter (!(visited ++ [o]).contains ·))
            (visited ++ [o])).run (ev.carryOut fuel depth) u = _ at h
          have htie := run_tie.symm.trans h
          have hlater := hobject.mono hsu.covers
          have hnext := Network.next_valid hu fun p hp => (hvalid p hp).mono hsu.covers
          have hkept := carryOut_promised hr fuel depth (.tie _ _) u hu hnext
          rw [htie] at hkept
          obtain ⟨-, hut, -⟩ := hkept
          refine Network.tieStep_idle ?_ ho fun id hid => ?_
          · rw [Store.children_of_extends hut.toExtends hlater htied]
            exact ih hu hnext htie hless
          · rw [hid] at hlater
            exact ((hut.node id hlater).tied (htied id hid)).1
        | error e u =>
          rw [hfinal] at h
          cases h
        | exhausted =>
          rw [hfinal] at h
          cases h

end Evaluator

namespace Network

/-- What a walk that starts from these roots finds in the end, read off the store as it then is. -/
structure Searched (s : Store) (roots found : List Object) : Prop where
  once : found.Nodup
  starts : ∀ o ∈ roots, o ∈ found
  closed : ∀ o ∈ found, ∀ c ∈ s.children o, c ∈ found
  reached : ∀ o ∈ found, s.Reaches roots o
  finalized : ∀ id, .node id ∈ found → (s.node id).isFinalized = true
  /-- The search through the graph as it is finds the same objects in the same order. -/
  search : ∀ rounds, found.length ≤ rounds → s.search rounds [] roots = found

theorem searched_of_discovers {s : Store} {roots found : List Object}
    (h : s.Discovers roots [] found)
    (htied : ∀ id, .node id ∈ found → (s.node id).pendingInput = none) :
    Searched s roots found where
  once := h.nodup List.nodup_nil
  starts := h.mem_of_work
  closed := h.children_mem (by simp)
  reached o ho := (h.mem_iff_reaches o).1 ho
  finalized id hid := by rw [Node.isFinalized, htied id hid, Option.isNone_none]
  search rounds hrounds := h.search_eq (by simpa using hrounds)

/-- A delay has been finalized and has its one input, or it has none and is still to be
    finalized. -/
def DelaysWhole (s : Store) : Prop :=
  ∀ id < s.nodes.size, (s.node id).operation = .delay →
    (s.node id).isFinalized = true ∧ (s.node id).inputs.length = 1 ∨
      (s.node id).isFinalized = false ∧ (s.node id).inputs = []

theorem delaysWhole_of_wellFormed {s : Store} {base : Nat} (hs : s.WellFormed base) :
    DelaysWhole s := by
  intro id hid hdelay
  have hsupplied := (hs.node id hid).supplied
  cases hfinal : (s.node id).isFinalized with
  | true => exact .inl ⟨rfl, hsupplied.finalized hdelay hfinal⟩
  | false => exact .inr ⟨rfl, hsupplied.pending hdelay hfinal⟩

end Network

namespace Session

variable {s t : Store} {ev : Evaluator} {r : Request} {roots : List Object}

/-- Tying together what can be reached from some objects, between the requests of a session or
    while one is answered, is a plain search: it finds what a search through the graph finds that
    it leaves behind, in the same order, and everything found is finalized. Tying the same objects
    together again, in any evaluator and with at least as much fuel, finds the same, accesses no
    cell and changes nothing. If it fails, no delay has been finalized by half. From outside of any
    expression, at depth zero, this is `Evaluator.finalizeGraph`. -/
theorem tie_searches (hs : Session .standard s) (hev : ev.registry = .standard) (hr : r.Valid s)
    {served : Nat} (ht : ev.Serves served r s t) (hroots : ∀ o ∈ roots, o.Valid t)
    (fuel depth : Nat) :
    (∀ found u, (Program.tie roots []).run (ev.carryOut fuel depth) t = .value found u →
      Network.Searched u roots found ∧
        ∀ (again : Evaluator) (more deep : Nat), fuel ≤ more →
          (Program.tie roots []).Idle again more deep u found) ∧
    ∀ e u, (Program.tie roots []).run (ev.carryOut fuel depth) t = .error e u →
      Network.DelaysWhole u := by
  have hsound : ev.registry.Sound := hev ▸ Registry.standard_sound
  obtain ⟨hwf, -⟩ := hs.serves_keeps Registry.standard_sound hev hr ht
  have hvalid : ∀ o ∈ roots ++ [], o.Valid t := by simpa using hroots
  have hkept := Evaluator.carryOut_promised hsound fuel depth (.tie roots []) t hwf hvalid
  refine ⟨fun found u h => ?_, fun e u h => ?_⟩
  · have htie := Evaluator.run_tie.symm.trans h
    rw [htie] at hkept
    obtain ⟨-, -, hfound, hall⟩ := hkept
    refine ⟨Network.searched_of_discovers hfound fun id hid => (hall _ hid).2 id rfl (by simp), ?_⟩
    exact fun again more deep hmore =>
      Evaluator.tie_again hsound hwf hvalid htie again hmore deep
  · have htie := Evaluator.run_tie.symm.trans h
    rw [htie] at hkept
    exact Network.delaysWhole_of_wellFormed hkept.1

/-- A delay whose input is not there before the delay is finalized. -/
def lateExpr : Expr :=
  .ofKind (Network.nodeExpr "DelayNode"
    [("input", Network.nodeExpr "InputValue" []), ("deltaT", .number 1)])

/-- Finalizing the delay makes its input, which is found although it was not there before. To do it
    again changes nothing. -/
theorem tie_searches_late : ∃ t u, ({} : Evaluator).Serves 40 (.evaluate lateExpr) {} t ∧
    t.nodes.size = 1 ∧
    ({} : Evaluator).finalizeGraph 40 [.node 0, .node 0] t = .value [.node 0, .node 1] u ∧
    u.search 2 [] [.node 0, .node 0] = [.node 0, .node 1] ∧
    ({} : Evaluator).finalizeGraph 40 [.node 0, .node 0] u = .value [.node 0, .node 1] u := by
  let ev : Evaluator := {}
  have hrun : ((ev.run 40 (Request.program ev (.evaluate lateExpr)) {}).store?.bind fun t =>
      (ev.finalizeGraph 40 [.node 0, .node 0] t).value?.map fun p => (t.nodes.size, p.1)) =
        some (1, [.node 0, .node 1]) := by
    decide +kernel
  obtain ⟨t, ht, hrun⟩ := Option.bind_eq_some_iff.1 hrun
  obtain ⟨⟨found, u⟩, hu, hrun⟩ := Option.map_eq_some_iff.1 hrun
  simp only [Prod.mk.injEq] at hrun
  obtain ⟨hsize, rfl⟩ := hrun
  have htie := Outcome.value?_eq_some hu
  have hserves : ev.Serves 40 (.evaluate lateExpr) {} t := Evaluator.serves_of_store? ht
  have hvalid : Request.Valid {} (.evaluate lateExpr) := trivial
  have hroots : ∀ o ∈ [Object.node 0, .node 0], o.Valid t := by
    rintro o ho
    obtain rfl : o = .node 0 := by simpa using ho
    change 0 < t.nodes.size
    omega
  obtain ⟨hsearched, hagain⟩ := (tie_searches .start rfl hvalid hserves hroots 40 0).1 _ _ htie
  exact ⟨t, u, hserves, hsize, htie, hsearched.search 2 (Nat.le_refl _),
    (hagain ev 40 0 (Nat.le_refl _)).run⟩

end Session

end NetDesc
