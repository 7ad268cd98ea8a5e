import NetDesc.Proofs.Endless.Chains
import NetDesc.Proofs.Naming.Run
import NetDesc.Proofs.Network.Exact
import NetDesc.Proofs.Scoping.Lookup

namespace NetDesc

namespace World

/-- What is there before a run belongs to no tier, and the run refers to nothing of it. No names
    are held but those of a network. -/
def initial (s : Store) : World where
  store := s
  since := s.nodes.size

theorem initial_holds {s : Store} {a : Holder} {k : Tier} {name : String}
    (h : name ∈ (initial s).holds a k) : a = .reserve ∧ name ∈ region "" := by
  cases a with
  | reserve => exact ⟨rfl, h.2.2⟩
  | cell c => cases h.1
  | node id => cases h.1

theorem initial_sound (begun : List Computation) (s : Store) : (initial s).Sound begun where
  cell := by rintro c k ⟨⟩
  record := by rintro r k ⟨⟩
  node := by rintro id k ⟨⟩
  network := by rintro id k ⟨⟩
  placed _ hid hsince := absurd hid (Nat.not_lt.2 hsince)
  forgotten := by rintro n ⟨⟩
  apart a b k l name hne ha hb :=
    absurd ((initial_holds ha).1.trans (initial_holds hb).1.symm) hne

theorem initial_current (s : Store) : (initial s).Current [] where
  numbered := by rintro n ⟨⟩
  live := by rintro n ⟨⟩

/-- The names of a tree are free: those in reserve start from nothing. -/
theorem initial_open (begun : List Computation) (s : Store) : (initial s).Open begun [] "$" := by
  intro name hname a k hheld
  exact absurd (initial_holds hheld).2 (Set.disjoint_left.1 region_root_disjoint hname)

end World

namespace Evaluator

/-- The computations that are begun while a member of a tree is evaluated. -/
def memberPerformed (ev : Evaluator) (fuel : Nat) (root : Expr) (name : String) (s : Store) :
    List Computation :=
  (ev.wholeMember root name).performed (ev.carryOut fuel 0) (ev.performed fuel 0) s

/-- The evaluation of a member of a tree ends in this store, or it makes a call in it. -/
def MemberComesTo (ev : Evaluator) (fuel : Nat) (root : Expr) (name : String) (s t : Store) :
    Prop :=
  (ev.evaluateMember fuel root name s).store? = some t ∨
    ∃ m, ev.CarriesOut fuel (ev.wholeMember root name) s m ∧ m.store = t

/-- Errors of a member pass through the location of the tree at most. -/
theorem upholds_of_wholeMember {ev : Evaluator} {fuel : Nat} {root : Expr} {name : String}
    {s : Store} {begun : List Computation} {w : World} {tier : Tier} {names : Set String}
    {started : Nat} {P : World → Value → Prop}
    (h : (ev.run fuel (ev.wholeMember root name) s).Upholds begun w tier names started P
      fun _ _ => False) :
    (ev.evaluateMember fuel root name s).Upholds begun w tier names started P fun _ _ => False := by
  rw [run, wholeMember, Program.run_bind] at h
  rw [evaluateMember, evaluateTopLevel, run]
  cases hroot : (ev.wholeTree root).run (ev.carryOut fuel 0) s with
  | value v t =>
    rw [hroot] at h
    exact h.through root.location
  | error e t =>
    rw [hroot] at h
    exact h
  | exhausted => trivial

variable {ev : Evaluator} (hev : ev.registry = .standard) (hpath : ev.rootPath = "$")
  {begun : List Computation} {root : Expr} (hroot : root.WellNamed) {name : String} {s : Store}

include hpath hroot in
theorem wholeMember_upholds {carryOut : (c : Call) → Store → Outcome c.Reply}
    {inside : Call → Store → List Computation} (hcalls : CallsUphold begun carryOut inside) :
    (ev.wholeMember root name).Upholds begun carryOut inside (.initial s) [] Set.univ
      fun _ _ => True := by
  have hparent : ∀ p, none = some p → Tier.Reaches ((World.initial s).record p) [] := by
    rintro p ⟨⟩
  rw [wholeMember, wholeTree, bind_assoc]
  refine .bind_still (Program.newRecord_upholds hparent) fun u scope _ hlater hscope => ?_
  have hopen : u.Open begun [] ev.rootPath := by
    rw [hpath]
    exact (World.initial_open begun s).later hlater (Set.disjoint_empty _)
  refine .bind (Program.evaluate_upholds hcalls hroot ⟨[], hscope, List.suffix_refl []⟩ hopen.clear)
    (Set.subset_univ _) fun v value _ _ hvalue => ?_
  exact (Program.memberOf_upholds hcalls hvalue.members_fit name root.location).imp
    (Set.empty_subset _) fun _ _ _ _ _ => trivial

theorem wholeMember_raises : (ev.wholeMember root name).Raises Cause.Ordinary :=
  .bind (.bind (fun _ => trivial) fun _ _ => trivial) fun v =>
    Program.memberOf_raises v name root.location

include hev hpath hroot

/-- From the initial world on, a run keeps names apart. -/
theorem member_keeps {fuel : Nat}
    (hpermits : (World.initial s).Permits begun (ev.memberPerformed fuel root name s)) :
    ∃ started, (ev.evaluateMember fuel root name s).Upholds begun (.initial s) [] Set.univ started
      (fun _ _ => True) fun _ _ => False := by
  have hcalls : CallsUphold begun (ev.carryOut fuel 0) (ev.performed fuel 0) :=
    carryOut_upholds hev fuel 0
  exact ⟨_, upholds_of_wholeMember ((wholeMember_upholds hpath hroot hcalls).outcome (.of_ordinary
    wholeMember_raises) (World.initial_sound begun s) (World.initial_current s) hpermits)⟩

theorem CarriesOut.asked {fuel : Nat} {m : Moment}
    (hm : ev.CarriesOut fuel (ev.wholeMember root name) s m)
    (hpermits : (World.initial s).Permits begun (ev.memberPerformed fuel root name s)) :
    m.call.Asked begun (ev.performed m.fuel m.depth) s.nodes.size m.store := by
  obtain ⟨c, next, t, hreach, hinside⟩ := hm
  have hcalls : CallsUphold begun (ev.carryOut fuel 0) (ev.performed fuel 0) :=
    carryOut_upholds hev fuel 0
  induction hinside with
  | refl =>
    exact (wholeMember_upholds hpath hroot hcalls (World.initial_sound begun s)
      (World.initial_current s) hpermits).2 c next t hreach
  | tail _ hstep ih => exact hstep.asked hev ih

/-- Nodes that are made have names of their own at every moment. -/
theorem MemberComesTo.namesDiffer {fuel : Nat} {t : Store}
    (ht : ev.MemberComesTo fuel root name s t)
    (hpermits : (World.initial s).Permits begun (ev.memberPerformed fuel root name s)) :
    World.NamesDiffer begun s.nodes.size t := by
  obtain hend | ⟨m, hm, rfl⟩ := ht
  · obtain ⟨started, hkeeps⟩ := member_keeps hev hpath hroot hpermits
    cases hrun : ev.evaluateMember fuel root name s with
    | value v u =>
      rw [hrun] at hkeeps hend
      obtain ⟨x, rfl, hx, hlater, -⟩ := hkeeps
      cases hend
      have hsince : x.since = s.nodes.size := hlater.since
      exact hsince ▸ hx.namesDiffer
    | error e u =>
      rw [hrun] at hkeeps hend
      cases hend
      exact hkeeps.1
    | exhausted =>
      rw [hrun] at hend
      cases hend
  · obtain ⟨w, tier, hstore, hsince, hw, -⟩ := hm.asked hev hpath hroot hpermits
    exact hsince ▸ hstore ▸ hw.namesDiffer

omit hroot

/-- Names identify nodes. If the evaluation of a member begins to make one network at most, no
    network fails for two nodes of one name, and nodes that are made never have the same name but at
    or below a path that the evaluation repeats. -/
theorem names_identify_nodes (hnames : root.WellNamed) {fuel : Nat}
    (hstarted : networksStarted (ev.memberPerformed fuel root name s) ≤ 1) :
    (∀ e t node, ev.evaluateMember fuel root name s = .error e t →
      e.cause ≠ Network.ambiguous node) ∧
    ∀ t, ev.MemberComesTo fuel root name s t →
      ∀ i < t.nodes.size, ∀ j < t.nodes.size, s.nodes.size ≤ i → s.nodes.size ≤ j → i ≠ j →
        (t.node i).name = (t.node j).name →
          ∃ path, Repeated (ev.memberPerformed fuel root name s) path ∧
            (t.node i).name ∈ region path := by
  have hpermits : (World.initial s).Permits (ev.memberPerformed fuel root name s)
      (ev.memberPerformed fuel root name s) := ⟨hstarted, fun _ h => h⟩
  constructor
  · intro e t node hrun hcause
    obtain ⟨started, hkeeps⟩ := member_keeps hev hpath hnames hpermits
    rw [hrun] at hkeeps
    exact hkeeps.2 node hcause
  · intro t ht i hi j hj hi' hj' hij hsame
    have hnot := ht.namesDiffer hev hpath hnames hpermits i hi j hj hi' hj' hij hsame
    simpa [UniqueName] using hnot

omit hev hpath in
/-- The three nodes of a network with a cycle have names of their own. -/
theorem names_identify_recurrent :
    Network.recurrentExpr.WellNamed ∧
      networksStarted (memberPerformed {} 40 Network.recurrentExpr "p" {}) = 1 ∧
      ∃ t, (evaluateMember {} 40 Network.recurrentExpr "p" {}).store? = some t ∧
        t.nodes.size = 3 ∧
        ∀ i < 3, ∀ j < 3, i ≠ j → (t.node i).name ≠ (t.node j).name := by
  have hnames : Network.recurrentExpr.WellNamed := by
    simp only [Network.recurrentExpr, Network.nodeExpr, Expr.WellNamed, Expr.everywhere_mk,
      ExprKind.parts, List.map_cons, List.map_nil, List.forall_mem_cons, ExprKind.WellNamed,
      Binding.value, Binding.name, List.not_mem_nil, false_imp_iff, implies_true]
    decide
  have hstarted : networksStarted (memberPerformed {} 40 Network.recurrentExpr "p" {}) = 1 := by
    decide +kernel
  have hplain :
      (memberPerformed {} 40 Network.recurrentExpr "p" {}).all (·.task.isPlain) = true := by
    decide +kernel
  have hrun : (evaluateMember {} 40 Network.recurrentExpr "p" {}).store?.map (·.nodes.size) =
      some 3 := by
    decide +kernel
  obtain ⟨t, ht, hsize⟩ := Option.map_eq_some_iff.1 hrun
  refine ⟨hnames, hstarted, t, ht, hsize, fun i hi j hj hij hsame => ?_⟩
  obtain ⟨path, hpath, -⟩ := (names_identify_nodes rfl rfl hnames (Nat.le_of_eq hstarted)).2 t
    (.inl ht) i (hsize.symm ▸ hi) j (hsize.symm ▸ hj) (Nat.zero_le i) (Nat.zero_le j) hij hsame
  exact not_repeated_of_plain hplain path hpath

/-- A truth that a node has been made for. -/
def madeExpr : Expr :=
  .call (.function ["x"] [] (.ofTruth true)) [Network.inputExpr] []

/-- A conditional in the branch of another. Both conditions make a node, at one path. -/
def nestedExpr : Expr :=
  .ofMembers [.ofName "v" (.ifThenElse madeExpr
    (.ifThenElse madeExpr (.ofTruth true) (.ofTruth false)) (.ofTruth false))]

/-- A call that passes two arguments under one name. -/
def twiceExpr : Expr :=
  .ofMembers [.ofName "v" (.call (.function [] [] (.ofTruth true)) []
    [.ofName "x" Network.inputExpr, .ofName "x" Network.inputExpr])]

/-- A function with two parameters of one name. -/
def sameParamsExpr : Expr :=
  .ofMembers [.ofName "v" (.call (.function ["x", "x"] [] (.ofTruth true))
    [Network.inputExpr, Network.inputExpr] [])]

/-- The member `v` of the tree makes two nodes of one name, and no network. -/
def MakesTwins (root : Expr) : Prop :=
  root.WellNamed ∧ networksStarted (memberPerformed {} 40 root "v" {}) = 0 ∧
    ∃ t, (evaluateMember {} 40 root "v" {}).store? = some t ∧ t.nodes.size = 2 ∧
      (t.node 0).name = (t.node 1).name

omit hev hpath in
/-- A conditional in a branch of another, two arguments passed under one name and two parameters of
    one name may each give two nodes one name. -/
theorem names_coincide :
    MakesTwins nestedExpr ∧ MakesTwins twiceExpr ∧ MakesTwins sameParamsExpr := by
  have hnames : nestedExpr.WellNamed ∧ twiceExpr.WellNamed ∧ sameParamsExpr.WellNamed := by
    simp only [nestedExpr, twiceExpr, sameParamsExpr, madeExpr, Network.inputExpr,
      Network.nodeExpr, Expr.ofKind, Expr.ofMembers, Expr.ofTruth, Expr.call, Expr.function,
      Expr.ifThenElse, Binding.ofName, Expr.WellNamed, Expr.everywhere_mk, ExprKind.parts,
      List.map_cons, List.map_nil, List.cons_append, List.nil_append, List.forall_mem_cons,
      List.not_mem_nil, false_imp_iff, implies_true, ExprKind.WellNamed, ArgList.positional,
      ArgList.named, ParamList.positional, ParamList.named, Binding.value, Binding.name, and_true,
      true_and]
    decide
  have htwins {root : Expr} (hroot : root.WellNamed)
      (hstarted : networksStarted (memberPerformed {} 40 root "v" {}) = 0)
      (hrun : ((evaluateMember {} 40 root "v" {}).store?.map fun t =>
        (t.nodes.size, decide ((t.node 0).name = (t.node 1).name))) = some (2, true)) :
      MakesTwins root := by
    obtain ⟨t, ht, hnodes⟩ := Option.map_eq_some_iff.1 hrun
    rw [Prod.mk.injEq, decide_eq_true_eq] at hnodes
    exact ⟨hroot, hstarted, t, ht, hnodes⟩
  exact ⟨htwins hnames.1 (by decide +kernel) (by decide +kernel),
    htwins hnames.2.1 (by decide +kernel) (by decide +kernel),
    htwins hnames.2.2 (by decide +kernel) (by decide +kernel)⟩

end Evaluator

end NetDesc
