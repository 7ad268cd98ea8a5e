import NetDesc.Proofs.Naming.Changes
import NetDesc.Proofs.Program.Calls
import NetDesc.Proofs.Run.Reaches

namespace NetDesc

variable {α β : Type}

/-- The computations that a run carries out, in the order in which they are begun, given those that
    calls carry out. -/
def Program.performed (carryOut : (c : Call) → Store → Outcome c.Reply)
    (inside : Call → Store → List Computation) : Program α → Store → List Computation
  | .done _, _ => []
  | .raise _, _ => []
  | .access a next, s => (next (a.perform s).1).performed carryOut inside (a.perform s).2
  | .call c next, s =>
    inside c s ++
      match carryOut c s with
      | .value reply t => (next reply).performed carryOut inside t
      | _ => []

/-- The computation begins with the construction of a network. -/
def Task.startsNetwork : Task → Bool
  | .evaluate e _ _ => e.kind.startsNetwork
  | _ => false

/-- How many networks are started by some computations. -/
def networksStarted (computations : List Computation) : Nat :=
  computations.countP (·.task.startsNetwork)

/-- How many networks may still be started: one, unless there has been one. -/
def World.spare (w : World) : Nat :=
  if w.reserved then 1 else 0

/-- Computations that may be carried out from here: they start no network too many, and the run
    is known to begin them. -/
structure World.Permits (begun : List Computation) (w : World) (computations : List Computation) :
    Prop where
  spare : networksStarted computations ≤ w.spare
  begun : ∀ c ∈ computations, c ∈ begun

theorem World.Permits.left {begun : List Computation} {w : World} {first rest : List Computation}
    (h : w.Permits begun (first ++ rest)) : w.Permits begun first where
  spare := by
    have hspare := h.spare
    rw [networksStarted, List.countP_append] at hspare
    exact Nat.le_trans (Nat.le_add_right _ _) hspare
  begun c hc := h.begun c (List.mem_append_left rest hc)

/-- The run ends as it should. A result comes with a sound world, in which only these names have
    been taken; an error leaves nodes with names that differ, and that two nodes have one name is
    only reported where this is expected. -/
def Outcome.Upholds (begun : List Computation) (w : World) (tier : Tier) (names : Set String)
    (started : Nat) (P : World → α → Prop) (expected : EvalError → Store → Prop) : Outcome α → Prop
  | .value a t => ∃ u : World, u.store = t ∧ u.Sound begun ∧ w.Later begun tier names u ∧
    w.spare ≤ u.spare + started ∧ P u a
  | .error e t => World.NamesDiffer begun w.since t ∧
    ∀ name, e.cause = Network.ambiguous name → expected e t
  | .exhausted => True

namespace World

/-- What a program needs that evaluates the expression at a path: all names that may be given
    there. Those of conditions may have been given in tiers above where the expression stands in a
    branch of another conditional. -/
structure Clear (begun : List Computation) (w : World) (tier : Tier) (e : Expr) (scope : RecordId)
    (path : String) : Prop where
  free : ∀ name ∈ region path, name ∉ aside path → Free begun w tier name
  aside : ∀ name ∈ aside path, ¬w.Covers tier name
  decided : (∀ name ∈ NetDesc.aside path, Free begun w tier name) ∨
    ∃ outer, Begins begun (.evaluate outer scope path) ∧
      ∃ branch ∈ outer.kind.branches, branch.decider = e.decider

/-- All names that may be given at a path are free. -/
def Open (begun : List Computation) (w : World) (tier : Tier) (path : String) : Prop :=
  ∀ name ∈ region path, Free begun w tier name

section Clear

variable {begun : List Computation} {w u : World} {tier : Tier} {names : Set String}
  {e inner : Expr} {scope : RecordId} {path : String}

theorem Open.later (h : Open begun w tier path) (hlater : w.Later begun tier names u)
    (hnames : Disjoint (region path) names) : Open begun u tier path :=
  fun name hname => hlater.free (h name hname) (Set.disjoint_left.1 hnames hname)

/-- Evaluating one part of an expression leaves the others open. -/
theorem Open.after_part {id other : String} (h : Open begun w tier (joinPath path id))
    (hid : PartId id) (hother : PartId other) (hapart : IdsApart id other)
    (hlater : w.Later begun tier (region (joinPath path other)) u) :
    Open begun u tier (joinPath path id) :=
  h.later hlater (region_joinPath_disjoint hid.ne_empty hother.ne_empty hapart)

theorem Open.after_parts {id : String} {ids : Set String} (h : Open begun w tier (joinPath path id))
    (hid : PartId id) (hids : ∀ other ∈ ids, PartId other ∧ IdsApart id other)
    (hlater : w.Later begun tier (regions path ids) u) : Open begun u tier (joinPath path id) :=
  h.later hlater (region_disjoint_regions hid.ne_empty fun other hother =>
    (hids other hother).imp_left PartId.ne_empty)

theorem Open.clear (h : Open begun w tier path) : Clear begun w tier e scope path where
  free name hname _ := h name hname
  aside name hname := (h name (aside_subset path hname)).not_covers
  decided := .inl fun name hname => h name (aside_subset path hname)

/-- What is evaluated at a repeated path may be evaluated in a tier of its own. -/
theorem Open.enter (hw : w.Sound begun) (hpath : Repeated begun path) (h : Open begun w tier path) :
    Open begun w.enter (w.inner tier) path :=
  fun name hname => hw.free_inner (h name hname).not_covers (.inl (hpath.not_unique hname))

namespace Clear

variable (h : Clear begun w tier e scope path)

include h

theorem self : Free begun w tier path :=
  h.free path (mem_region_self path) (not_mem_aside path)

theorem part {id : String} (hid : PartId id) : Open begun w tier (joinPath path id) :=
  fun name hname => h.free name (hid.region_subset hname)
    (Set.disjoint_left.1 hid.region_disjoint_aside hname)

theorem element (hpath : path ≠ "") (i : Int64) :
    Open begun w tier (Evaluator.elementPath path i) :=
  fun name hname => h.free name (region_elementPath_subset hpath i hname)
    (Set.disjoint_left.1 (region_elementPath_disjoint_joinPath hpath i (by decide)) hname)

/-- Whatever is decided at the path in a part is decided there in the whole. -/
theorem of_whole (hinner : e.decider = inner.decider) : Clear begun w tier inner scope path :=
  { h with decided := hinner ▸ h.decided }

/-- A condition is evaluated in a tier of its own. If the conditional stands in a branch of another,
    it may give names that the other condition has given. -/
theorem condition (hw : w.Sound begun) (hbegun : Begins begun (.evaluate e scope path))
    (hself : e.decider = some e) : Open begun w.enter (w.inner tier) (joinPath path "if") := by
  intro name hname
  obtain hfree | ⟨outer, houter, branch, hbranch, hdecider⟩ := h.decided
  · exact hw.free_inner (h.aside name hname) (.inr (hfree name hname))
  · have htwice : Repeated begun (joinPath path "if") :=
      .condition houter hbegun hbranch (hdecider.trans hself)
    exact hw.free_inner (h.aside name hname) (.inl (htwice.not_unique hname))

/-- Nothing that a condition has done is in the way of the branches. -/
theorem after (hlater : w.enter.Later begun (w.inner tier) (NetDesc.aside path) u)
    (hbegun : Begins begun (.evaluate e scope path)) (hinner : inner ∈ e.kind.branches) :
    Clear begun u tier inner scope path where
  free name hname hnot := hlater.leave.free (h.free name hname hnot) hnot
  aside name hname := hlater.not_covers_leave (h.aside name hname)
  decided := .inr ⟨e, hbegun, inner, hinner, rfl⟩

end Clear

end Clear

end World

/-- Values that have members: records and networks. -/
def Value.HasMembers (v : Value) : Prop :=
  match v.payload with
  | .record _ => True
  | .object (.network _) => True
  | _ => False

/-- What evaluating an expression at a path gives. Where there is no path a value may refer to nodes
    without a name, but then it has no members. A value with members leaves the name at the path
    itself alone. -/
structure Value.Given (begun : List Computation) (w : World) (tier : Tier) (path : String)
    (u : World) (v : Value) : Prop where
  fits : v.Fits u tier ∨ path = "" ∧ ¬v.HasMembers
  unnamed : v.HasMembers → w.Later begun tier (within path) u

namespace Call

/-- The call may be made at the tier. -/
def Ready (begun : List Computation) (w : World) (tier : Tier) : Call → Prop
  | perform (.evaluate e scope path) =>
    e.WellNamed ∧ Tier.Reaches (w.record scope) tier ∧ w.Clear begun tier e scope path
  | perform (.element f index path _) =>
    f.Fits w tier ∧ index.Fits w tier ∧ path ≠ "" ∧ w.Open begun tier path
  | perform (.constant v) => v.Fits w tier
  | force c => Tier.Reaches (w.cell c) tier
  | render _ v => v.Fits w tier
  | tie work visited => (∀ o ∈ work ++ visited, o.Fits w tier) ∧ visited.Nodup

/-- The call may be made in this store, at some tier of a sound world. -/
def Asked (begun : List Computation) (inside : Call → Store → List Computation) (since : Nat)
    (c : Call) (s : Store) : Prop :=
  ∃ (w : World) (tier : Tier), w.store = s ∧ w.since = since ∧ w.Sound begun ∧ w.Current tier ∧
    c.Ready begun w tier ∧ w.Permits begun (inside c s)

/-- The names that a call takes which belong to nothing before. -/
def names : Call → Set String
  | perform task => task.names
  | _ => ∅

/-- What is known of an answer. The value of a cell even fits the tier of the cell. -/
def Fitting (begun : List Computation) (w : World) (tier : Tier) (u : World) :
    (c : Call) → c.Reply → Prop
  | perform (.evaluate e scope path) => fun v : Value =>
    v.Given begun w tier path u ∧ ⟨.evaluate e scope path, some v⟩ ∈ begun
  | perform _ => fun v : Value => v.Fits u tier
  | force c => fun v : Value => ∀ k, w.cell c = some k → v.Fits u k
  | render _ _ => fun _ => True
  | tie _ _ => fun found : List Object => (∀ o ∈ found, o.Fits u tier) ∧ found.Nodup

end Call

/-- Calls that are ready uphold what they should, as long as they begin nothing that they must
    not. -/
def CallsUphold (begun : List Computation) (carryOut : (c : Call) → Store → Outcome c.Reply)
    (inside : Call → Store → List Computation) : Prop :=
  ∀ (c : Call) (w : World) (tier : Tier), w.Sound begun → w.Current tier →
    c.Ready begun w tier → w.Permits begun (inside c w.store) →
      (carryOut c w.store).Upholds begun w tier c.names (networksStarted (inside c w.store))
        (fun u reply => c.Fitting begun w tier u reply) fun _ _ => False

namespace Program

variable {begun : List Computation} {carryOut : (c : Call) → Store → Outcome c.Reply}
  {inside : Call → Store → List Computation}

section Performed

variable {p : Program α} {f : α → Program β} {s : Store}

theorem performed_bind : (p >>= f).performed carryOut inside s =
    p.performed carryOut inside s ++
      match p.run carryOut s with
      | .value a t => (f a).performed carryOut inside t
      | _ => [] := by
  change (p.bind f).performed carryOut inside s = _
  induction p generalizing s with
  | done result => rfl
  | raise e => rfl
  | access a next ih => exact ih _
  | call c next ih =>
    rw [Program.bind, performed, performed, run, List.append_assoc]
    congr 1
    cases carryOut c s with
    | value reply t => exact ih reply
    | error e t => rfl
    | exhausted => rfl

theorem Reaches.raise_bind {e : EvalError} {t : Store} (h : p.Reaches carryOut s (.raise e) t) :
    (p >>= f).Reaches carryOut s (.raise e) t := by
  change (p.bind f).Reaches carryOut s (.raise e) t
  induction p generalizing s with
  | done result => cases h
  | raise e' =>
    cases h
    exact .start _ _
  | access a next ih =>
    cases h with
    | access h => exact .access (ih _ h)
  | call c next ih =>
    cases h with
    | reply hreply h => exact .reply hreply (ih _ h)

/-- A call of two programs is one of the first, or of the second after the first has ended. -/
theorem reaches_call_of_bind {c : Call} {next : c.Reply → Program β} {t : Store}
    (h : (p >>= f).Reaches carryOut s (.call c next) t) :
    (∃ rest, p.Reaches carryOut s (.call c rest) t) ∨
      ∃ a u, p.run carryOut s = .value a u ∧ (f a).Reaches carryOut u (.call c next) t := by
  change (p.bind f).Reaches carryOut s (.call c next) t at h
  induction p generalizing s with
  | done a => exact .inr ⟨a, s, rfl, h⟩
  | raise e => cases h
  | access a rest ih =>
    cases h with
    | access h => exact (ih _ h).imp_left fun ⟨rest', h⟩ => ⟨rest', .access h⟩
  | call d rest ih =>
    cases h with
    | start => exact .inl ⟨rest, .start _ _⟩
    | reply hreply h =>
      obtain ⟨rest', h⟩ | ⟨a, u, hrun, h⟩ := ih _ h
      · exact .inl ⟨rest', .reply hreply h⟩
      · exact .inr ⟨a, u, by rw [run, hreply]; exact hrun, h⟩

theorem Reaches.bind_of_value {a : α} {t u : Store} {q : Program β}
    (hrun : p.run carryOut s = .value a t) (h : (f a).Reaches carryOut t q u) :
    (p >>= f).Reaches carryOut s q u := by
  change (p.bind f).Reaches carryOut s q u
  induction p generalizing s with
  | done result =>
    cases hrun
    exact h
  | raise e => cases hrun
  | access b next ih => exact .access (ih _ hrun)
  | call c next ih =>
    rw [run] at hrun
    cases hreply : carryOut c s with
    | value reply v =>
      rw [hreply] at hrun
      exact .reply hreply (ih reply hrun)
    | error e v =>
      rw [hreply] at hrun
      cases hrun
    | exhausted =>
      rw [hreply] at hrun
      cases hrun

/-- A program only comes to errors with causes that it may raise. -/
theorem Raises.of_reaches {C : Cause → Prop} {e : EvalError} {t : Store} (hp : p.Raises C)
    (h : p.Reaches carryOut s (.raise e) t) : C e.cause := by
  induction p generalizing s with
  | done result => cases h
  | raise e' =>
    cases h
    exact hp
  | access a next ih =>
    cases h with
    | access h => exact ih _ (hp _) h
  | call c next ih =>
    cases h with
    | reply hreply h => exact ih _ (hp _) h

end Performed

/-- A program is judged at a tier and with names that it may give. From a sound world it ends as
    it should and takes no other names, apart from those that cells have held for it, and on the
    way it makes no call that may not be made. It may report that two nodes have one name only by
    itself. -/
def Upholds (begun : List Computation) (carryOut : (c : Call) → Store → Outcome c.Reply)
    (inside : Call → Store → List Computation) (p : Program α) (w : World) (tier : Tier)
    (names : Set String) (P : World → α → Prop) : Prop :=
  w.Sound begun → w.Current tier → w.Permits begun (p.performed carryOut inside w.store) →
      (p.run carryOut w.store).Upholds begun w tier names
        (networksStarted (p.performed carryOut inside w.store)) P
        (fun e t => p.Reaches carryOut w.store (.raise e) t) ∧
      ∀ c next t, p.Reaches carryOut w.store (.call c next) t → c.Asked begun inside w.since t

variable {w : World} {tier : Tier} {names more : Set String} {P : World → α → Prop}
  {Q : World → β → Prop}

namespace Upholds

theorem of_sound {p : Program α} (hp : w.Sound begun → w.Current tier →
    p.Upholds begun carryOut inside w tier names P) :
    p.Upholds begun carryOut inside w tier names P :=
  fun hw hcurrent => hp hw hcurrent hw hcurrent

theorem pure {a : α} (ha : P w a) :
    (Pure.pure a : Program α).Upholds begun carryOut inside w tier names P :=
  fun hw _ _ =>
    ⟨⟨w, rfl, hw, .refl w tier names, Nat.le_add_right _ _, ha⟩, by rintro c next t ⟨⟩⟩

theorem raise (e : EvalError) :
    (Program.raise e : Program α).Upholds begun carryOut inside w tier names P :=
  fun hw _ _ => ⟨⟨hw.namesDiffer, fun _ _ => .start _ _⟩, by rintro c next t ⟨⟩⟩

/-- Where the first of two programs has ended, the second one may start networks that are left. -/
theorem value_of_bind {p : Program α} {f : α → Program β}
    (hp : p.Upholds begun carryOut inside w tier names P) (hw : w.Sound begun)
    (hcurrent : w.Current tier)
    (hpermits : w.Permits begun ((p >>= f).performed carryOut inside w.store)) {a : α} {t : Store}
    (hrun : p.run carryOut w.store = .value a t) :
    ∃ u : World, u.store = t ∧ u.Sound begun ∧ u.Current tier ∧ w.Later begun tier names u ∧ P u a ∧
      w.spare ≤ u.spare + networksStarted (p.performed carryOut inside w.store) ∧
      u.Permits begun ((f a).performed carryOut inside t) := by
  rw [performed_bind, hrun] at hpermits
  have hend := (hp hw hcurrent hpermits.left).1
  rw [hrun] at hend
  obtain ⟨u, rfl, hu, hlater, hspent, ha⟩ := hend
  have hspare := hpermits.spare
  rw [networksStarted, List.countP_append] at hspare
  refine ⟨u, rfl, hu, hcurrent.later hlater.toExtends, hlater, ha, hspent, ?_, fun c hc =>
    hpermits.begun c (List.mem_append_right _ hc)⟩
  unfold networksStarted at hspent ⊢
  dsimp only at hspare
  omega

/-- A program that changes nothing and calls for nothing. -/
theorem of_run {p : Program α} {a : α} (hrun : p.run carryOut w.store = .value a w.store)
    (hcalls : p.Calls fun _ => False) (ha : P w a) :
    p.Upholds begun carryOut inside w tier names P := by
  intro hw _ _
  rw [hrun]
  exact ⟨⟨w, rfl, hw, .refl w tier names, Nat.le_add_right _ _, ha⟩,
    fun c next t hreach => (hcalls.reaches hreach).elim⟩

/-- What the second program has to uphold starts from where the first one may have ended. -/
theorem bind {p : Program α} {f : α → Program β}
    (hp : p.Upholds begun carryOut inside w tier names P) (hnames : names ⊆ more)
    (hf : ∀ u a, u.Sound begun → w.Later begun tier names u → P u a →
      (f a).Upholds begun carryOut inside u tier more Q) :
    (p >>= f).Upholds begun carryOut inside w tier more Q := by
  intro hw hcurrent hpermits
  have hfirst : w.Permits begun (p.performed carryOut inside w.store) := by
    rw [performed_bind] at hpermits
    exact hpermits.left
  refine ⟨?ending, fun c next t hreach => ?asked⟩
  case asked =>
    obtain ⟨rest, hreach⟩ | ⟨a, u, hresult, hreach⟩ := reaches_call_of_bind hreach
    · exact (hp hw hcurrent hfirst).2 c rest t hreach
    · obtain ⟨u, rfl, hu, hcurrent', hlater, ha, -, hleft⟩ :=
        hp.value_of_bind hw hcurrent hpermits hresult
      exact hlater.since ▸ (hf u a hu hlater ha hu hcurrent' hleft).2 c next t hreach
  rw [run_bind, performed_bind, networksStarted, List.countP_append]
  cases hresult : p.run carryOut w.store with
  | value a t =>
    obtain ⟨u, rfl, hu, hcurrent', hlater, ha, hspent, hleft⟩ :=
      hp.value_of_bind hw hcurrent hpermits hresult
    have hrest := (hf u a hu hlater ha hu hcurrent' hleft).1
    change ((f a).run carryOut u.store).Upholds begun w tier more _ Q _
    cases hfinal : (f a).run carryOut u.store with
    | value b t =>
      rw [hfinal] at hrest
      obtain ⟨v, hv, hsound, hlater', hspent', hb⟩ := hrest
      refine ⟨v, hv, hsound, (hlater.mono hnames).trans hlater', ?_, hb⟩
      unfold networksStarted at hspent hspent'
      dsimp only
      omega
    | error e t =>
      rw [hfinal] at hrest
      exact ⟨hlater.since ▸ hrest.1, fun name hcause =>
        .bind_of_value hresult (hrest.2 name hcause)⟩
    | exhausted => trivial
  | error e t =>
    have hend := (hp hw hcurrent hfirst).1
    rw [hresult] at hend
    exact hend.imp_right fun h name hcause => .raise_bind (h name hcause)
  | exhausted => trivial

/-- The first program takes no names. -/
theorem bind_still {p : Program α} {f : α → Program β}
    (hp : p.Upholds begun carryOut inside w tier ∅ P)
    (hf : ∀ u a, u.Sound begun → w.Later begun tier ∅ u → P u a →
      (f a).Upholds begun carryOut inside u tier names Q) :
    (p >>= f).Upholds begun carryOut inside w tier names Q :=
  hp.bind (Set.empty_subset names) hf

/-- A check comes before what the program does with what passes it. -/
theorem check {x : Except EvalError α} {f : α → Program β}
    (hf : ∀ a, x = .ok a → (f a).Upholds begun carryOut inside w tier names Q) :
    (Program.ofExcept x >>= f).Upholds begun carryOut inside w tier names Q := by
  cases x with
  | ok a => exact hf a rfl
  | error e => exact raise e

theorem ofExcept {x : Except EvalError α} (hx : ∀ a, x = .ok a → P w a) :
    (Program.ofExcept x).Upholds begun carryOut inside w tier names P := by
  cases x with
  | ok a => exact pure (hx a rfl)
  | error e => exact raise e

/-- The same run may be seen from another tier, and may end in another world with the same store. -/
theorem recast {P' : World → α → Prop} {p : Program α} {number : Nat} {other : Tier}
    (hp : p.Upholds begun carryOut inside { w with next := number } other names P)
    (hstart : w.Sound begun → w.Current tier →
      World.Sound begun { w with next := number } ∧ World.Current { w with next := number } other)
    (hend : ∀ u a, w.Sound begun → w.Current tier → u.Sound begun →
      World.Later begun { w with next := number } other names u → P u a →
        ∃ v : World, v.store = u.store ∧ v.reserved = u.reserved ∧ v.Sound begun ∧
          w.Later begun tier more v ∧ P' v a) :
    p.Upholds begun carryOut inside w tier more P' := by
  intro hw hcurrent hpermits
  obtain ⟨hw', hcurrent'⟩ := hstart hw hcurrent
  obtain ⟨hrun, hasked⟩ := hp hw' hcurrent' ⟨hpermits.spare, hpermits.begun⟩
  refine ⟨?_, hasked⟩
  change (p.run carryOut w.store).Upholds _ _ _ _ _ _ _ at hrun
  cases hresult : p.run carryOut w.store with
  | value a t =>
    rw [hresult] at hrun
    obtain ⟨u, rfl, hsound, hlater, hspent, ha⟩ := hrun
    obtain ⟨v, hstore, hreserved, hsound', hlater', ha'⟩ := hend u a hw hcurrent hsound hlater ha
    have hspare : v.spare = u.spare := by rw [World.spare, hreserved, World.spare]
    exact ⟨v, hstore, hsound', hlater', hspare ▸ hspent, ha'⟩
  | error e t =>
    rw [hresult] at hrun
    exact hrun
  | exhausted => trivial

theorem imp {P' : World → α → Prop} {p : Program α}
    (hp : p.Upholds begun carryOut inside w tier names P) (hnames : names ⊆ more)
    (himp : ∀ u a, u.Sound begun → w.Later begun tier names u → P u a → P' u a) :
    p.Upholds begun carryOut inside w tier more P' :=
  recast hp And.intro fun u a _ _ hu hlater ha =>
    ⟨u, rfl, rfl, hu, hlater.mono hnames, himp u a hu hlater ha⟩

theorem mono {p : Program α} (hp : p.Upholds begun carryOut inside w tier names P)
    (hnames : names ⊆ more) : p.Upholds begun carryOut inside w tier more P :=
  hp.imp hnames fun _ _ _ _ h => h

/-- A step leads to another sound world. -/
theorem step {a : Access} {P : World → a.Reply → Prop}
    (ha : w.Sound begun → w.Current tier → ∃ u : World, u.store = (a.perform w.store).2 ∧
      u.Sound begun ∧ w.Later begun tier names u ∧ u.reserved = w.reserved ∧
        P u (a.perform w.store).1) :
    (Program.step a).Upholds begun carryOut inside w tier names P := by
  intro hw hcurrent _
  obtain ⟨u, hstore, hsound, hlater, hreserved, hreply⟩ := ha hw hcurrent
  refine ⟨⟨u, hstore, hsound, hlater, ?_, hreply⟩, by rintro c next t (_ | ⟨⟨⟩⟩)⟩
  simp [World.spare, hreserved]

/-- A step that only looks. -/
theorem look {a : Access} {P : World → a.Reply → Prop} (ha : (a.perform w.store).2 = w.store)
    (hP : P w (a.perform w.store).1) :
    (Program.step a).Upholds begun carryOut inside w tier names P :=
  .step fun hw _ => ⟨w, ha.symm, hw, .refl w tier names, rfl, hP⟩

theorem call {c : Call} {P : World → c.Reply → Prop} (hcalls : CallsUphold begun carryOut inside)
    (hc : c.Ready begun w tier)
    (hP : ∀ u reply, u.Sound begun → w.Later begun tier c.names u → c.Fitting begun w tier u reply →
      P u reply) :
    (Program.call c done).Upholds begun carryOut inside w tier c.names P := by
  intro hw hcurrent hpermits
  have hperformed : (Program.call c done).performed carryOut inside w.store = inside c w.store := by
    rw [performed]
    cases carryOut c w.store <;> exact List.append_nil _
  rw [hperformed] at hpermits ⊢
  refine ⟨?ending, ?asked⟩
  case asked =>
    rintro _ _ _ (_ | _ | ⟨_, ⟨⟩⟩)
    exact ⟨w, tier, rfl, rfl, hw, hcurrent, hc, hpermits⟩
  have hcall := hcalls c w tier hw hcurrent hc hpermits
  rw [run_call]
  cases hresult : carryOut c w.store with
  | value reply t =>
    rw [hresult] at hcall
    obtain ⟨u, hstore, hsound, hlater, hspent, hreply⟩ := hcall
    exact ⟨u, hstore, hsound, hlater, hspent, hP u reply hsound hlater hreply⟩
  | error e t =>
    rw [hresult] at hcall
    exact hcall.imp_right fun h name hcause => (h name hcause).elim
  | exhausted => trivial

/-- What a condition does belongs to a tier of its own. -/
theorem inCondition {P' : World → α → Prop} {p : Program α}
    (hp : p.Upholds begun carryOut inside w.enter (w.inner tier) names P)
    (himp : ∀ u a, u.Sound begun → w.enter.Later begun (w.inner tier) names u → P u a → P' u a) :
    p.Upholds begun carryOut inside w tier names P' :=
  recast hp (fun hw hcurrent => ⟨hw.enter, hw.current_inner hcurrent⟩) fun u a _ _ hu hlater ha =>
    ⟨u, rfl, rfl, hu, hlater.leave, himp u a hu hlater ha⟩

/-- What is of no use afterwards may be done in a tier of its own. It takes no names then, if none
    of them has to be unique. -/
theorem forgotten {p : Program α} (hnames : ∀ name ∈ names, ¬UniqueName begun name)
    (hp : p.Upholds begun carryOut inside w.enter (w.inner tier) names P) :
    p.Upholds begun carryOut inside w tier ∅ fun _ _ => True :=
  recast hp (fun hw hcurrent => ⟨hw.enter, hw.current_inner hcurrent⟩) fun u _ _ _ hu hlater _ =>
    ⟨u.forget w.next, rfl, rfl, hu.forget (Nat.lt_of_succ_le hlater.next),
      hlater.forget hnames ∅, trivial⟩

end Upholds

/-- The program does not report by itself that two nodes have one name. -/
def Careful (begun : List Computation) (carryOut : (c : Call) → Store → Outcome c.Reply)
    (inside : Call → Store → List Computation) (p : Program α) (w : World) (tier : Tier) : Prop :=
  w.Sound begun → w.Current tier → w.Permits begun (p.performed carryOut inside w.store) →
      ∀ e t name, p.Reaches carryOut w.store (.raise e) t → e.cause ≠ Network.ambiguous name

namespace Careful

theorem of_raises {p : Program α}
    (hp : p.Raises fun c => ∀ name, c ≠ Network.ambiguous name) :
    p.Careful begun carryOut inside w tier :=
  fun _ _ _ _ _ name hreaches => hp.of_reaches hreaches name

theorem of_ordinary {p : Program α} (hp : p.Raises Cause.Ordinary) :
    p.Careful begun carryOut inside w tier :=
  of_raises (hp.imp fun _ h => h.unambiguous)

theorem of_run {p : Program α} {a : α} {t : Store} (hrun : p.run carryOut w.store = .value a t) :
    p.Careful begun carryOut inside w tier := by
  intro _ _ _ e u name hreaches
  have hend := hreaches.run_eq
  rw [hrun] at hend
  cases hend

theorem bind {p : Program α} {f : α → Program β} (hp : p.Careful begun carryOut inside w tier)
    (hupholds : p.Upholds begun carryOut inside w tier names P)
    (hf : ∀ u a, u.Sound begun → w.Later begun tier names u → P u a →
      (f a).Careful begun carryOut inside u tier) :
    (p >>= f).Careful begun carryOut inside w tier := by
  intro hw hcurrent hpermits e t name hreaches
  rcases reaches_raise_of_bind hreaches with hfirst | ⟨a, s, hrun, hsecond⟩
  · rw [performed_bind] at hpermits
    exact hp hw hcurrent hpermits.left e t name hfirst
  · obtain ⟨u, rfl, hu, hcurrent', hlater, ha, -, hleft⟩ :=
      hupholds.value_of_bind hw hcurrent hpermits hrun
    exact hf u a hu hlater ha hu hcurrent' hleft e t name hsecond

theorem check {x : Except EvalError α} {f : α → Program β} (hx : ChecksRaise Cause.Ordinary x)
    (hf : ∀ a, x = .ok a → (f a).Careful begun carryOut inside w tier) :
    (Program.ofExcept x >>= f).Careful begun carryOut inside w tier := by
  cases x with
  | ok a => exact hf a rfl
  | error e => exact of_ordinary (checksRaise_error.1 hx)

end Careful

end Program

end NetDesc
