import Mathlib.Data.List.Duplicate
import NetDesc.Proofs.Naming.Trees
import NetDesc.Proofs.Store.Valid

namespace NetDesc

/-- A computation that a run carries out, with the value that it gives, unless it fails. -/
structure Computation where
  task : Task
  value? : Option Value

/-- The run begins to compute this. -/
def Begins (begun : List Computation) (task : Task) : Prop :=
  ∃ value?, ⟨task, value?⟩ ∈ begun

theorem Computation.begins {begun : List Computation} {c : Computation} (h : c ∈ begun) :
    Begins begun c.task :=
  ⟨c.value?, h⟩

/-- A tier of evaluation: the numbers of the conditions that are being decided, innermost first,
    and of arguments that will be replaced. A tier is above those that are its suffixes. -/
abbrev Tier := List Nat

/-- A tier that may be missing is there and is not above the other. -/
def Tier.Reaches (own : Option Tier) (tier : Tier) : Prop :=
  ∃ k, own = some k ∧ k <:+ tier

/-- A store, with the tiers to which its things belong. Things only refer to things of their own
    tier and of those below it, so nothing that is made in a condition can be found once it has
    been decided. Cells that nothing refers to have no tier. -/
structure World where
  store : Store
  cell : CellId → Option Tier := fun _ => none
  record : RecordId → Option Tier := fun _ => none
  node : NodeId → Option Tier := fun _ => none
  network : NetworkId → Option Tier := fun _ => none
  /-- No network has been started yet, so the names that start from nothing are still free. -/
  reserved : Bool := true
  /-- Tiers have been given smaller numbers so far. -/
  next : Nat := 0
  /-- The numbers of tiers whose things are of no use any more. -/
  forgotten : Set Nat := ∅
  /-- Nodes before this one have been there from the start. -/
  since : Nat := 0

namespace World

variable {w u : World} {tier other : Tier}

/-- What is evaluated at the tier may refer to the node. Nodes that have no name are never
    referred to. -/
def SeesNode (w : World) (tier : Tier) (id : NodeId) : Prop :=
  Tier.Reaches (w.node id) tier ∧ (w.store.node id).name ≠ ""

/-- All numbers of the tier have been given. -/
def Numbered (w : World) (tier : Tier) : Prop :=
  ∀ n ∈ tier, n < w.next

/-- Nothing of the tier has been forgotten. -/
def Live (w : World) (tier : Tier) : Prop :=
  ∀ n ∈ tier, n ∉ w.forgotten

/-- Something may be evaluated at the tier. -/
structure Current (w : World) (tier : Tier) : Prop where
  numbered : w.Numbered tier
  live : w.Live tier

/-- Things stay in their tiers, and nodes that have a name keep one. Only tiers that are new are
    forgotten. -/
structure Extends (w u : World) : Prop where
  cell : ∀ c k, w.cell c = some k → u.cell c = some k
  record : ∀ r k, w.record r = some k → u.record r = some k
  node : ∀ id k, w.node id = some k → u.node id = some k
  network : ∀ id k, w.network id = some k → u.network id = some k
  named : ∀ id k, w.node id = some k → (w.store.node id).name ≠ "" → (u.store.node id).name ≠ ""
  next : w.next ≤ u.next
  forgotten : w.forgotten ⊆ u.forgotten
  remembered : ∀ n ∈ u.forgotten, n < w.next → n ∈ w.forgotten
  since : u.since = w.since

theorem Extends.refl (w : World) : w.Extends w where
  cell _ _ h := h
  record _ _ h := h
  node _ _ h := h
  network _ _ h := h
  named _ _ _ h := h
  next := Nat.le_refl _
  forgotten := subset_rfl
  remembered _ hn _ := hn
  since := rfl

theorem Extends.trans {v : World} (hwu : w.Extends u) (huv : u.Extends v) : w.Extends v where
  cell c k h := huv.cell c k (hwu.cell c k h)
  record r k h := huv.record r k (hwu.record r k h)
  node id k h := huv.node id k (hwu.node id k h)
  network id k h := huv.network id k (hwu.network id k h)
  named id k h hname := huv.named id k (hwu.node id k h) (hwu.named id k h hname)
  next := Nat.le_trans hwu.next huv.next
  forgotten := hwu.forgotten.trans huv.forgotten
  remembered n hn hlt :=
    hwu.remembered n (huv.remembered n hn (Nat.lt_of_lt_of_le hlt hwu.next)) hlt
  since := huv.since.trans hwu.since

theorem Numbered.later (hk : w.Numbered tier) (h : w.Extends u) : u.Numbered tier :=
  fun n hn => Nat.lt_of_lt_of_le (hk n hn) h.next

theorem Live.below (h : w.Live tier) (hle : other <:+ tier) : w.Live other :=
  fun n hn => h n (hle.subset hn)

/-- What has not been forgotten later on had not been before. -/
theorem Live.before (hk : u.Live tier) (h : w.forgotten ⊆ u.forgotten) : w.Live tier :=
  fun n hn hmem => hk n hn (h hmem)

theorem Current.later (hk : w.Current tier) (h : w.Extends u) : u.Current tier where
  numbered := hk.numbered.later h
  live n hn hmem := hk.live n hn (h.remembered n hmem (hk.numbered n hn))

theorem Current.below (h : w.Current tier) (hle : other <:+ tier) : w.Current other where
  numbered n hn := h.numbered n (hle.subset hn)
  live := h.live.below hle

end World

theorem Tier.Reaches.above {own : Option Tier} {tier other : Tier} (h : Reaches own tier)
    (hle : tier <:+ other) : Reaches own other := by
  obtain ⟨k, hown, hk⟩ := h
  exact ⟨k, hown, hk.trans hle⟩

theorem World.SeesNode.above {w : World} {id : NodeId} {tier other : Tier} (h : w.SeesNode tier id)
    (hle : tier <:+ other) : w.SeesNode other id :=
  ⟨h.1.above hle, h.2⟩

/-- The function refers to things that can be seen from the tier. -/
structure Function.Fits (w : World) (tier : Tier) (f : Function) : Prop where
  scope : Tier.Reaches (w.record f.scope) tier
  named : ∀ p ∈ f.named, Tier.Reaches (w.cell p.2) tier
  params : ∀ p ∈ f.params, IsIdentifier p
  body : f.body.WellNamed

def Object.Fits (w : World) (tier : Tier) : Object → Prop
  | .node id => w.SeesNode tier id
  | .network id => Tier.Reaches (w.network id) tier
  | .action _ => True

def Payload.Fits (w : World) (tier : Tier) : Payload → Prop
  | .number _ | .text _ | .truth _ => True
  | .record id => Tier.Reaches (w.record id) tier
  | .array a => ∀ c ∈ a.cells, Tier.Reaches (w.cell c) tier
  | .function f => f.Fits w tier
  | .object o => o.Fits w tier

/-- The value refers to things that can be seen from the tier. -/
def Value.Fits (w : World) (tier : Tier) (v : Value) : Prop :=
  v.payload.Fits w tier

/-- What the computation needs can be seen from the tier, and it has a path to name nodes after. -/
def Task.Fits (w : World) (tier : Tier) : Task → Prop
  | .evaluate e scope path => e.WellNamed ∧ Tier.Reaches (w.record scope) tier ∧ path ≠ ""
  | .element f index path _ => f.Fits w tier ∧ index.Fits w tier ∧ path ≠ ""
  | .constant v => v.Fits w tier

/-- The names that the computation may give to nodes. -/
def Task.names : Task → Set String
  | .evaluate _ _ path => region path
  | .element _ _ path _ => region path
  | .constant _ => ∅

structure Cell.Fits (w : World) (tier : Tier) (c : Cell) : Prop where
  task : c.task.Fits w tier
  value : ∀ v, c.progress = .finished v → v.Fits w tier

structure Record.Fits (w : World) (tier : Tier) (r : Record) : Prop where
  members : ∀ p ∈ r.members, Tier.Reaches (w.cell p.2.cell) tier
  enclosing : ∀ id ∈ r.enclosing, Tier.Reaches (w.record id) tier

structure Node.Fits (w : World) (tier : Tier) (n : Node) : Prop where
  inputs : ∀ id ∈ n.inputs, w.SeesNode tier id
  pending : ∀ c, n.pendingInput = some c → Tier.Reaches (w.cell c) tier

structure Network.Fits (w : World) (tier : Tier) (n : Network) : Prop where
  nodes : ∀ p ∈ n.nodes, w.SeesNode tier p.2
  fields : Tier.Reaches (w.record n.fields) tier

/-- What can be seen from a tier of one world can be seen from a tier of the other. -/
structure World.Shows (w : World) (tier : Tier) (u : World) (other : Tier) : Prop where
  cell : ∀ c, Tier.Reaches (w.cell c) tier → Tier.Reaches (u.cell c) other
  record : ∀ r, Tier.Reaches (w.record r) tier → Tier.Reaches (u.record r) other
  node : ∀ id, w.SeesNode tier id → u.SeesNode other id
  network : ∀ id, Tier.Reaches (w.network id) tier → Tier.Reaches (u.network id) other

section Later

variable {begun : List Computation} {w u : World} {tier other : Tier}

namespace World.Extends

variable (h : w.Extends u)

include h

theorem reaches_cell {c : CellId} (hc : Tier.Reaches (w.cell c) tier) :
    Tier.Reaches (u.cell c) tier := by
  obtain ⟨k, hown, hk⟩ := hc
  exact ⟨k, h.cell c k hown, hk⟩

theorem reaches_record {r : RecordId} (hr : Tier.Reaches (w.record r) tier) :
    Tier.Reaches (u.record r) tier := by
  obtain ⟨k, hown, hk⟩ := hr
  exact ⟨k, h.record r k hown, hk⟩

theorem reaches_network {id : NetworkId} (hid : Tier.Reaches (w.network id) tier) :
    Tier.Reaches (u.network id) tier := by
  obtain ⟨k, hown, hk⟩ := hid
  exact ⟨k, h.network id k hown, hk⟩

theorem seesNode {id : NodeId} (hid : w.SeesNode tier id) : u.SeesNode tier id := by
  obtain ⟨⟨k, hown, hk⟩, hname⟩ := hid
  exact ⟨⟨k, h.node id k hown, hk⟩, h.named id k hown hname⟩

/-- What can be seen from a tier still can later on, and from the tiers above. -/
theorem shows (hle : tier <:+ other) : w.Shows tier u other where
  cell _ hc := (h.reaches_cell hc).above hle
  record _ hr := (h.reaches_record hr).above hle
  node _ hid := (h.seesNode hid).above hle
  network _ hid := (h.reaches_network hid).above hle

theorem kept : w.Shows tier u tier :=
  h.shows (List.suffix_refl tier)

end World.Extends

section Seen

variable (h : w.Shows tier u other)

include h

theorem Function.Fits.seen {f : Function} (hf : f.Fits w tier) : f.Fits u other where
  scope := h.record _ hf.scope
  named p hp := h.cell _ (hf.named p hp)
  params := hf.params
  body := hf.body

theorem Object.Fits.seen {o : Object} (ho : o.Fits w tier) : o.Fits u other := by
  cases o with
  | node id => exact h.node id ho
  | network id => exact h.network id ho
  | action id => trivial

theorem Value.Fits.seen {v : Value} (hv : v.Fits w tier) : v.Fits u other := by
  obtain ⟨payload, location, path⟩ := v
  cases payload with
  | record id => exact h.record id hv
  | array a => exact fun c hc => h.cell c (hv c hc)
  | function f => exact Function.Fits.seen h hv
  | object o => exact Object.Fits.seen h hv
  | _ => trivial

theorem Task.Fits.seen {task : Task} (ht : task.Fits w tier) : task.Fits u other := by
  cases task with
  | evaluate e scope path => exact ⟨ht.1, h.record _ ht.2.1, ht.2.2⟩
  | element f index path location => exact ⟨ht.1.seen h, ht.2.1.seen h, ht.2.2⟩
  | constant v => exact Value.Fits.seen h ht

theorem Cell.Fits.seen {c : Cell} (hc : c.Fits w tier) : c.Fits u other where
  task := hc.task.seen h
  value v hv := (hc.value v hv).seen h

theorem Record.Fits.seen {r : Record} (hr : r.Fits w tier) : r.Fits u other where
  members p hp := h.cell _ (hr.members p hp)
  enclosing id hid := h.record id (hr.enclosing id hid)

theorem Node.Fits.seen {n : Node} (hn : n.Fits w tier) : n.Fits u other where
  inputs id hid := h.node id (hn.inputs id hid)
  pending c hc := h.cell c (hn.pending c hc)

theorem Network.Fits.seen {n : Network} (hn : n.Fits w tier) : n.Fits u other where
  nodes p hp := h.node p.2 (hn.nodes p hp)
  fields := h.record _ hn.fields

end Seen

theorem Value.Fits.mono {v : Value} (hv : v.Fits w tier) (h : w.Extends u) :
    v.Fits u tier :=
  hv.seen h.kept

/-- Of the values that are given to parameters of one name, the last can be seen from the tier. -/
def LastFit (w : World) (tier : Tier) : List String → List Value → Prop
  | name :: names, v :: values =>
    (name ∈ names ∨ v.Fits w tier) ∧ LastFit w tier names values
  | [], [] => True
  | _, _ => False

theorem LastFit.of_fits {names : List String} {values : List Value}
    (hlength : names.length = values.length) (h : ∀ v ∈ values, v.Fits w tier) :
    LastFit w tier names values := by
  induction names generalizing values with
  | nil =>
    cases values with
    | nil => trivial
    | cons v values => cases hlength
  | cons name names ih =>
    cases values with
    | nil => cases hlength
    | cons v values =>
      rw [List.forall_mem_cons] at h
      exact ⟨.inr h.1, ih (Nat.succ.inj hlength) h.2⟩

theorem LastFit.mono {names : List String} {values : List Value}
    (hfit : LastFit w tier names values) (h : w.Extends u) :
    LastFit u tier names values := by
  induction names generalizing values with
  | nil => cases values <;> exact hfit
  | cons name names ih =>
    cases values with
    | nil => exact hfit
    | cons v values => exact ⟨hfit.1.imp_right (·.mono h), ih hfit.2⟩

end Later

/-- What may hold names: a node holds its own, and a cell that is pending all names that its
    computation may give. Before the first network is started, its names are held in reserve. -/
inductive Holder where
  | reserve
  | cell (c : CellId)
  | node (id : NodeId)

/-- Several expressions may be evaluated at the path of which none is part of another. What they
    make may have the same names. -/
inductive Repeated (begun : List Computation) : String → Prop where
  /-- Two conditionals are decided at one path, the one in a branch of the other. -/
  | condition {scope : RecordId} {outer inner branch : Expr} {path : String}
      (houter : Begins begun (.evaluate outer scope path))
      (hinner : Begins begun (.evaluate inner scope path)) (hbranch : branch ∈ outer.kind.branches)
      (hdecider : branch.decider = some inner) : Repeated begun (joinPath path "if")
  /-- A call passes two arguments under one name. -/
  | named {func : Expr} {args : ArgList} {location : Location} {scope : RecordId}
      {path name : String}
      (hcall : Begins begun (.evaluate (.mk (.apply func args) location) scope path))
      (htwice : List.Duplicate name (args.named.map (·.name.name))) :
      Repeated begun (joinPath path name)
  /-- A call passes two arguments to a function with two parameters of one name. -/
  | positional {func : Expr} {args : ArgList} {location : Location} {scope : RecordId}
      {path name : String} {v : Value} {f : Function}
      (hcall : Begins begun (.evaluate (.mk (.apply func args) location) scope path))
      (hfunc : ⟨.evaluate func scope (joinPath path "_lambda"), some v⟩ ∈ begun)
      (hfunction : v.asFunction = .ok f)
      (harity : args.positional.length = f.arity) (htwice : List.Duplicate name f.params) :
      Repeated begun (joinPath path s!"({name})")

/-- The computation neither decides a conditional nor calls a function. -/
def Task.isPlain : Task → Bool
  | .evaluate (.mk (.conditional ..) _) _ _ | .evaluate (.mk (.apply ..) _) _ _ => false
  | _ => true

theorem not_repeated_of_plain {begun : List Computation}
    (hplain : begun.all (·.task.isPlain) = true) (path : String) : ¬Repeated begun path := by
  rw [List.all_eq_true] at hplain
  have hnot {task : Task} (hbegun : Begins begun task) : task.isPlain = true :=
    let ⟨_, hmem⟩ := hbegun
    hplain _ hmem
  intro h
  cases h with
  | @condition _ outer _ _ _ houter _ hbranch =>
    obtain ⟨kind, location⟩ := outer
    cases kind with
    | conditional => exact absurd (hnot houter) Bool.false_ne_true
    | _ => cases hbranch
  | named hcall => exact absurd (hnot hcall) Bool.false_ne_true
  | positional hcall => exact absurd (hnot hcall) Bool.false_ne_true

/-- A name that only one node may ever have, whatever tiers nodes belong to. -/
def UniqueName (begun : List Computation) (name : String) : Prop :=
  ∀ path, Repeated begun path → name ∉ region path

theorem Repeated.not_unique {begun : List Computation} {path name : String}
    (h : Repeated begun path) (hname : name ∈ region path) : ¬UniqueName begun name :=
  fun hunique => hunique path h hname

namespace World

/-- The names that are held at a tier. -/
def holds (w : World) : Holder → Tier → Set String
  | .reserve, k => {name | w.reserved = true ∧ k = [] ∧ name ∈ region ""}
  | .cell c, k =>
    {name | w.cell c = some k ∧ (w.store.cell c).progress = .pending ∧
      name ∈ (w.store.cell c).task.names}
  | .node id, k => {name | w.node id = some k ∧ (w.store.node id).name = name}

/-- Two holders in these tiers must not both hold the name: one tier is above the other, unless
    they have been forgotten, or only one node may ever have the name. -/
def Clash (w : World) (begun : List Computation) (k tier : Tier) (name : String) : Prop :=
  (k <:+ tier ∨ tier <:+ k) ∧ w.Live k ∧ w.Live tier ∨ UniqueName begun name

/-- The name is held at the tier or below. -/
def Covers (w : World) (tier : Tier) (name : String) : Prop :=
  w.Live tier ∧ ∃ holder k, name ∈ w.holds holder k ∧ k <:+ tier

/-- A holder at the tier may take the name. -/
def Free (begun : List Computation) (w : World) (tier : Tier) (name : String) : Prop :=
  ∀ holder k, name ∈ w.holds holder k → ¬w.Clash begun k tier name

/-- References go to tiers that are not above, and names are held once. -/
structure Sound (begun : List Computation) (w : World) : Prop where
  cell : ∀ c k, w.cell c = some k →
    c < w.store.cells.size ∧ w.Numbered k ∧ (w.store.cell c).Fits w k
  record : ∀ r k, w.record r = some k →
    r < w.store.records.size ∧ w.Numbered k ∧ (w.store.record r).Fits w k
  node : ∀ id k, w.node id = some k →
    id < w.store.nodes.size ∧ w.Numbered k ∧ (w.store.node id).Fits w k
  network : ∀ id k, w.network id = some k →
    id < w.store.networks.size ∧ w.Numbered k ∧ (w.store.network id).Fits w k
  placed : ∀ id < w.store.nodes.size, w.since ≤ id → ∃ k, w.node id = some k
  forgotten : ∀ n ∈ w.forgotten, n < w.next
  apart : ∀ a b k l name, a ≠ b → name ∈ w.holds a k → name ∈ w.holds b l →
    ¬w.Clash begun k l name

/-- From one world to the other, only names of the region have been taken, and only at this tier
    and above. In tiers that are forgotten other names may have been taken, but none that has to be
    unique. -/
structure Later (begun : List Computation) (w : World) (tier : Tier) (names : Set String)
    (u : World) : Prop extends Extends w u where
  held : ∀ k name, u.Covers k name → w.Covers k name ∨ tier <:+ k ∧ name ∈ names
  unique : ∀ a k name, name ∈ u.holds a k → UniqueName begun name →
    (∃ b l, name ∈ w.holds b l) ∨ name ∈ names

variable {begun : List Computation} {w u v : World} {k l m tier other : Tier}
  {names more : Set String} {name : String}

namespace Clash

theorem symm (h : w.Clash begun k l name) : w.Clash begun l k name :=
  h.imp_left fun ⟨hle, hk, hl⟩ => ⟨hle.symm, hl, hk⟩

/-- What clashes with a tier above clashes with the tier itself. -/
theorem below (h : w.Clash begun m l name) (hk : k <:+ m) : w.Clash begun k l name := by
  obtain ⟨hml | hlm, hm, hl⟩ | hunique := h
  · exact .inl ⟨.inl (hk.trans hml), hm.below hk, hl⟩
  · exact .inl ⟨List.suffix_or_suffix_of_suffix hk hlm, hm.below hk, hl⟩
  · exact .inr hunique

/-- What clashes later on has clashed before. -/
theorem before (h : u.Clash begun k l name) (hforgotten : w.forgotten ⊆ u.forgotten) :
    w.Clash begun k l name :=
  h.imp_left fun ⟨hle, hk, hl⟩ => ⟨hle, hk.before hforgotten, hl.before hforgotten⟩

theorem root (h : w.Clash begun k l name) : w.Clash begun [] k name :=
  h.imp_left fun ⟨_, hk, _⟩ => ⟨.inl List.nil_suffix, by rintro n ⟨⟩, hk⟩

end Clash

theorem Free.not_covers (h : Free begun w tier name) : ¬w.Covers tier name := by
  rintro ⟨hlive, holder, k, hheld, hk⟩
  exact h holder k hheld (.inl ⟨.inl hk, hlive.below hk, hlive⟩)

/-- A free name that is covered somewhere does not clash there. -/
theorem Free.not_clash (h : Free begun w tier name) (hk : w.Covers k name) :
    ¬w.Clash begun k tier name := by
  obtain ⟨-, holder, l, hheld, hl⟩ := hk
  exact fun hclash => h holder l hheld (hclash.below hl)

namespace Later

theorem refl (w : World) (tier : Tier) (names : Set String) : w.Later begun tier names w where
  toExtends := .refl w
  held _ _ h := .inl h
  unique a k _ h _ := .inl ⟨a, k, h⟩

theorem trans (hwu : w.Later begun tier names u) (huv : u.Later begun tier names v) :
    w.Later begun tier names v where
  toExtends := hwu.toExtends.trans huv.toExtends
  held k name h := (huv.held k name h).elim (hwu.held k name) .inr
  unique a k name h hunique :=
    (huv.unique a k name h hunique).elim (fun ⟨b, l, hb⟩ => hwu.unique b l name hb hunique) .inr

theorem widen (h : w.Later begun tier names u) (hle : other <:+ tier) (hnames : names ⊆ more) :
    w.Later begun other more u where
  toExtends := h.toExtends
  held k name hk := (h.held k name hk).imp_right fun ⟨habove, hname⟩ =>
    ⟨hle.trans habove, hnames hname⟩
  unique a k name hheld hunique := (h.unique a k name hheld hunique).imp_right (hnames ·)

theorem mono (h : w.Later begun tier names u) (hnames : names ⊆ more) : w.Later begun tier more u :=
  h.widen (List.suffix_refl tier) hnames

/-- What is taken at no tier can be taken at any. -/
theorem nowhere (h : w.Later begun tier ∅ u) : w.Later begun other names u where
  toExtends := h.toExtends
  held k name hk := (h.held k name hk).imp_right fun ⟨_, hname⟩ => hname.elim
  unique a k name hheld hunique := (h.unique a k name hheld hunique).imp_right fun h => h.elim

/-- Nothing is taken that was held anyway. -/
theorem of_held {a : Holder} {k : Tier} (h : w.Later begun k names u)
    (hheld : names ⊆ w.holds a k) :
    w.Later begun tier more u where
  toExtends := h.toExtends
  held l name hl := (h.held l name hl).elim .inl fun ⟨hle, hname⟩ =>
    .inl ⟨hl.1.before h.forgotten, a, k, hheld hname, hle⟩
  unique b l name hb hunique := (h.unique b l name hb hunique).elim .inl fun hname =>
    .inl ⟨a, k, hheld hname⟩

/-- Names that are not taken stay free. -/
theorem free (h : w.Later begun tier names u) (hfree : Free begun w other name)
    (hname : name ∉ names) : Free begun u other name := by
  intro holder k hheld hclash
  obtain ⟨-, hk, -⟩ | hunique := id hclash
  · obtain hcovers | ⟨-, hmem⟩ := h.held k name ⟨hk, holder, k, hheld, List.suffix_refl k⟩
    · exact hfree.not_clash hcovers (hclash.before h.forgotten)
    · exact hname hmem
  · obtain ⟨a, l, ha⟩ | hmem := h.unique holder k name hheld hunique
    · exact hfree a l ha (.inr hunique)
    · exact hname hmem

/-- Names that are taken above a tier are not taken at the tier. -/
theorem not_covers (h : w.Later begun tier names u) (hcovers : ¬w.Covers other name)
    (habove : ¬tier <:+ other ∨ name ∉ names) : ¬u.Covers other name := by
  intro hu
  obtain hw | ⟨hle, hmem⟩ := h.held other name hu
  · exact hcovers hw
  · exact habove.elim (fun hnot => hnot hle) fun hnot => hnot hmem

end Later

/-- No two nodes since some node have the same name, apart from names that need not be unique. -/
def NamesDiffer (begun : List Computation) (since : Nat) (s : Store) : Prop :=
  ∀ i < s.nodes.size, ∀ j < s.nodes.size, since ≤ i → since ≤ j → i ≠ j →
    (s.node i).name = (s.node j).name → ¬UniqueName begun (s.node i).name

theorem Sound.namesDiffer (h : w.Sound begun) : NamesDiffer begun w.since w.store := by
  intro i hi j hj hi' hj' hij hname hunique
  obtain ⟨k, hk⟩ := h.placed i hi hi'
  obtain ⟨l, hl⟩ := h.placed j hj hj'
  have hne : Holder.node i ≠ .node j := by
    rintro ⟨⟩
    exact hij rfl
  exact h.apart _ _ k l _ hne ⟨hk, rfl⟩ ⟨hl, hname.symm⟩ (.inr hunique)

/-- Nodes that can be seen from one tier have different names. -/
theorem Sound.seen_differ (h : w.Sound begun) (htier : w.Live tier) {i j : NodeId}
    (hi : w.SeesNode tier i) (hj : w.SeesNode tier j) (hij : i ≠ j) :
    (w.store.node i).name ≠ (w.store.node j).name := by
  obtain ⟨⟨k, hk, hki⟩, -⟩ := hi
  obtain ⟨⟨l, hl, hlj⟩, -⟩ := hj
  intro hname
  have hne : Holder.node i ≠ .node j := by
    rintro ⟨⟩
    exact hij rfl
  refine h.apart _ _ k l _ hne ⟨hk, rfl⟩ ⟨hl, hname.symm⟩ (.inl ⟨?_, htier.below hki,
    htier.below hlj⟩)
  exact List.suffix_or_suffix_of_suffix hki hlj

end World

end NetDesc
