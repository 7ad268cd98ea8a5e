import NetDesc.Proofs.Session

namespace NetDesc

variable {α : Type}

/-- The node that a step ties. -/
def Access.ties : Access → List NodeId
  | tieInput node _ => [node]
  | _ => []

/-- The nodes that are tied in a run, in order, given how calls are carried out and what is tied
    inside them. They are read off the run, as its history is. -/
def Program.ties (carryOut : (c : Call) → Store → Outcome c.Reply)
    (inside : Call → Store → List NodeId) : Program α → Store → List NodeId
  | .done _, _ => []
  | .raise _, _ => []
  | .access a next, s =>
    a.ties ++ (next (a.perform s).1).ties carryOut inside (a.perform s).2
  | .call c next, s =>
    inside c s ++
      match carryOut c s with
      | .value reply t => (next reply).ties carryOut inside t
      | _ => []

/-- The nodes that are tied while a call is carried out. -/
def Evaluator.ties (ev : Evaluator) : (fuel depth : Nat) → Call → Store → List NodeId
  | 0, _, _, _ => []
  | fuel + 1, depth, .perform (.evaluate e scope path), s =>
    if depth < ev.maxDepth then
      (ev.taskProgram (.evaluate e scope path)).ties (ev.carryOut fuel (depth + 1))
        (ev.ties fuel (depth + 1)) s
    else
      []
  | fuel + 1, depth, .perform (.element initializer index path location), s =>
    (ev.taskProgram (.element initializer index path location)).ties (ev.carryOut fuel depth)
      (ev.ties fuel depth) s
  | _ + 1, _, .perform (.constant _), _ => []
  | fuel + 1, depth, .force cell, s =>
    match (s.cell cell).progress with
    | .pending => ev.ties fuel depth (.perform (s.cell cell).task) (s.setProgress cell .running)
    | _ => []
  | fuel + 1, depth, .render spec v, s =>
    (Render.value spec v).ties (ev.carryOut fuel depth) (ev.ties fuel depth) s
  | fuel + 1, depth, .tie work visited, s =>
    (Network.tieStep work visited).ties (ev.carryOut fuel depth) (ev.ties fuel depth) s

/-- The nodes that are tied while a request is answered. -/
def Request.ties (r : Request) (ev : Evaluator) (fuel : Nat) (s : Store) : List NodeId :=
  (r.program ev).ties (ev.carryOut fuel 0) (ev.ties fuel 0) s

/-- The node is there, and nothing is left to be tied. -/
def Store.Tied (s : Store) (id : NodeId) : Prop :=
  id < s.nodes.size ∧ (s.node id).pendingInput = none

theorem Store.Tied.mono {s t : Store} {base : Nat} {id : NodeId} (h : s.Tied id)
    (hst : s.Extends base t) : t.Tied id :=
  ⟨Nat.lt_of_lt_of_le h.1 hst.covers.nodes, ((hst.node id h.1).tied h.2).1⟩

/-- In a run from `s` that ended as `o` these nodes were tied, each of them once. -/
structure TiesOnce (s : Store) (ties : List NodeId) (o : Outcome α) : Prop where
  once : ties.Nodup
  waiting : ∀ id ∈ ties, ¬s.Tied id
  tied : ∀ t, o.store? = some t → ∀ id ∈ ties, t.Tied id

namespace TiesOnce

variable {s t : Store} {ties more : List NodeId} {o : Outcome α}

theorem none (s : Store) (o : Outcome α) : TiesOnce s [] o :=
  ⟨List.nodup_nil, by simp, by simp⟩

theorem through (h : TiesOnce s ties o) (location : Location) :
    TiesOnce s ties (o.through location) where
  once := h.once
  waiting := h.waiting
  tied t ht := h.tied t (by rwa [Outcome.store?_through] at ht)

/-- What is tied later is still waiting now, so it is not among what has been tied. -/
theorem nodup_append (honce : ties.Nodup) (htied : ∀ id ∈ ties, t.Tied id)
    (hmore : TiesOnce t more o) : (ties ++ more).Nodup := by
  refine List.nodup_append.2 ⟨honce, hmore.once, ?_⟩
  intro id hid other hother heq
  exact hmore.waiting other hother (heq ▸ htied id hid)

theorem append {base : Nat} (hst : s.Extends base t) (honce : ties.Nodup)
    (hwaiting : ∀ id ∈ ties, ¬s.Tied id) (htied : ∀ id ∈ ties, t.Tied id)
    (hmore : TiesOnce t more o) (hlater : ∀ u, o.store? = some u → ∃ base, t.Extends base u) :
    TiesOnce s (ties ++ more) o where
  once := nodup_append honce htied hmore
  waiting id hid := by
    rcases List.mem_append.1 hid with hid | hid
    · exact hwaiting id hid
    · exact fun h => hmore.waiting id hid (h.mono hst)
  tied u hu id hid := by
    obtain ⟨base, htu⟩ := hlater u hu
    rcases List.mem_append.1 hid with hid | hid
    · exact (htied id hid).mono htu
    · exact hmore.tied u hu id hid

end TiesOnce

/-- Only a node that waits for its input is tied, and from then on it does not wait. -/
theorem Access.Allowed.ties_tied {base : Nat} {s : Store} {a : Access} (ha : a.Allowed base s) :
    ∀ id ∈ a.ties, ¬s.Tied id ∧ (a.perform s).2.Tied id := by
  intro id hid
  cases a with
  | tieInput node input =>
    obtain rfl := List.mem_singleton.1 hid
    obtain ⟨-, c, hc, -⟩ := ha
    have hthere : id < s.nodes.size := by
      by_contra hout
      have hdefault : s.node id = default := by simp [Store.node, Nat.le_of_not_lt hout]
      rw [hdefault] at hc
      cases hc
    refine ⟨fun h => ?_, ?_, ?_⟩
    · simp [h.2] at hc
    · simpa [perform] using hthere
    · simp [perform, Store.node_modify, hthere]
  | _ => simp [ties] at hid

namespace Program

variable {carryOut : (c : Call) → Store → Outcome c.Reply} {inside : Call → Store → List NodeId}
  {Q : Nat → Store → α → Prop} {p : Program α} {base : Nat} {s t : Store}

theorem Meets.run_extends (hcalls : Promised carryOut) (hs : s.WellFormed base)
    (hp : p.Meets Q base s) (ht : (p.run carryOut s).store? = some t) : s.Extends base t := by
  have hinside (c : Call) (s t : Store) (hs : s.WellFormed s.records.size) (hc : c.Valid s)
      (ht : (carryOut c s).store? = some t) :
      t.WellFormed t.records.size ∧ s.Extends s.records.size t := by
    obtain ⟨hwf, hgrows⟩ := (hcalls c s hs hc).of_store? ht
    exact ⟨hwf, hgrows.toExtends⟩
  exact (hp.passes hcalls hinside hs (passes_of_store? ht fun _ _ _ h => h)).2

/-- A run ties nodes once, as long as calls do. -/
theorem Meets.tiesOnce (hcalls : Promised carryOut)
    (hinside : ∀ (c : Call) (s : Store), s.WellFormed s.records.size → c.Valid s →
      TiesOnce s (inside c s) (carryOut c s))
    (hs : s.WellFormed base) (hp : p.Meets Q base s) :
    TiesOnce s (p.ties carryOut inside s) (p.run carryOut s) := by
  induction p generalizing base s with
  | done result => exact .none s _
  | raise e => exact .none s _
  | access a next ih =>
    obtain ⟨ha, hnext⟩ := hp
    have hwf := ha.wellFormed hs
    have honce : a.ties.Nodup := by cases a <;> simp [Access.ties]
    have hties := ha.ties_tied
    refine .append (ha.grows hs).toExtends honce (fun id hid => (hties id hid).1)
      (fun id hid => (hties id hid).2) (ih _ hwf hnext) fun u hu => ?_
    exact ⟨base, hnext.run_extends hcalls hwf hu⟩
  | call c next ih =>
    obtain ⟨hc, hnext⟩ := hp
    have hcall := hinside c s hs.seal hc
    have hkept := hcalls c s hs.seal hc
    rw [Program.ties, Program.run]
    cases hreply : carryOut c s with
    | value reply t =>
      rw [hreply] at hcall hkept
      obtain ⟨hwf, hgrows, hanswer⟩ := hkept
      have hrest := hnext t reply hwf hgrows hanswer
      refine .append hgrows.toExtends hcall.once hcall.waiting (hcall.tied t rfl)
        (ih reply hwf hrest) fun u hu => ?_
      exact ⟨_, hrest.run_extends hcalls hwf hu⟩
    | error e t =>
      rw [hreply] at hcall
      rw [List.append_nil]
      exact ⟨hcall.once, hcall.waiting, hcall.tied⟩
    | exhausted =>
      rw [hreply] at hcall
      rw [List.append_nil]
      exact ⟨hcall.once, hcall.waiting, by simp [Outcome.store?]⟩

end Program

namespace Evaluator

variable {ev : Evaluator}

/-- With any fuel and at any depth, a call ties nodes once. -/
theorem carryOut_tiesOnce (hr : ev.registry.Sound) (fuel depth : Nat) (c : Call) (s : Store)
    (hs : s.WellFormed s.records.size) (hc : c.Valid s) :
    TiesOnce s (ev.ties fuel depth c s) (ev.carryOut fuel depth c s) := by
  induction fuel generalizing depth c s with
  | zero => exact .none s _
  | succ fuel ih =>
    have hrun {α : Type} {p : Program α} {Q : Nat → Store → α → Prop} (depth : Nat)
        (hp : p.Ensures s.records.size s Q) :
        TiesOnce s (p.ties (ev.carryOut fuel depth) (ev.ties fuel depth) s)
          (p.run (ev.carryOut fuel depth) s) :=
      (hp hs).tiesOnce (carryOut_promised hr fuel depth) (ih depth) hs
    cases c with
    | perform task =>
      have htask : task.Valid s := hc
      cases task with
      | evaluate e scope path =>
        by_cases hdepth : depth < ev.maxDepth
        · rw [carryOut_evaluate ev fuel s hdepth, ties, if_pos hdepth]
          exact (hrun _ (taskProgram_givesValue hr htask)).through e.location
        · rw [ties, if_neg hdepth]
          exact .none s _
      | element initializer index path location =>
        exact (hrun depth (taskProgram_givesValue hr htask)).through location
      | constant v => exact .none s _
    | force cell =>
      rw [ties]
      cases hprogress : (s.cell cell).progress with
      | finished v => exact .none s _
      | running => exact .none s _
      | pending =>
        rw [carryOut_force_pending ev fuel depth hprogress]
        have hinner :=
          ih depth (.perform (s.cell cell).task) _ (hs.start hprogress) (hs.task_valid hc)
        refine ⟨hinner.once, hinner.waiting, fun t ht => ?_⟩
        obtain ⟨u, p, hu, rfl⟩ := settle_store? ht
        exact hinner.tied u hu
    | render spec v => exact hrun depth (Render.value_ensures spec hc)
    | tie work visited => exact hrun depth (Network.tieStep_ensures hc)

end Evaluator

/-- Sessions together with the nodes that have been tied, in order. -/
inductive Session.Tying (registry : Registry) : List NodeId → Store → Prop
  | start : Tying registry [] {}
  | request {ties : List NodeId} {s t : Store} (hs : Tying registry ties s) {ev : Evaluator}
      (hev : ev.registry = registry) {r : Request} (hr : r.Valid s) {fuel : Nat}
      (ht : (ev.run fuel (r.program ev) s).store? = some t) :
      Tying registry (ties ++ r.ties ev fuel s) t

namespace Session.Tying

variable {registry : Registry} {ties : List NodeId} {s : Store}

theorem session (h : Tying registry ties s) : Session registry s := by
  induction h with
  | start => exact .start
  | request _ hev hr ht ih => exact ih.request hev hr ht

/-- A request ties nodes that were not tied before, each of them once. -/
theorem request_tiesOnce (hregistry : registry.Sound) (hs : Session registry s) {ev : Evaluator}
    (hev : ev.registry = registry) {r : Request} (hr : r.Valid s) (fuel : Nat) :
    TiesOnce s (r.ties ev fuel s) (ev.run fuel (r.program ev) s) := by
  have hsound : ev.registry.Sound := hev ▸ hregistry
  have hwf := hs.wellFormed hregistry
  exact (Request.program_ensures hsound hr hwf).tiesOnce (Evaluator.carryOut_promised hsound fuel 0)
    (Evaluator.carryOut_tiesOnce hsound fuel 0) hwf

/-- In a whole session no node is tied twice. -/
theorem once (hregistry : registry.Sound) (h : Tying registry ties s) :
    ties.Nodup ∧ ∀ id ∈ ties, s.Tied id := by
  induction h with
  | start => simp
  | @request ties s t hs ev hev r hr fuel ht ih =>
    have hmore := request_tiesOnce hregistry hs.session hev hr fuel
    obtain ⟨honce, htied⟩ := ih
    obtain ⟨-, hst⟩ := hs.session.serves_keeps hregistry hev hr (Evaluator.serves_of_store? ht)
    refine ⟨hmore.nodup_append honce htied, fun id hid => ?_⟩
    rcases List.mem_append.1 hid with hid | hid
    · exact (htied id hid).mono hst
    · exact hmore.tied t ht id hid

end Session.Tying

end NetDesc
