import NetDesc.Proofs.Network.Build
import NetDesc.Proofs.Operators.Dispatch

namespace NetDesc

variable {α β : Type}

/-- An index is written with digits, after a sign if it is negative. -/
theorem Index.toString_chars (i : Int64) : ∀ c ∈ (toString i).toList, c.isDigit ∨ c = '-' := by
  intro c hc
  have hdigit {n : Nat} (h : c ∈ n.repr.toList) : c.isDigit = true := by
    rw [Nat.repr_eq_ofList_toDigits, String.toList_ofList] at h
    exact Nat.isDigit_of_mem_toDigits (by decide) (by decide) h
  change c ∈ i.toInt.repr.toList at hc
  rw [Int.repr_eq_if] at hc
  split at hc
  · exact .inl (hdigit hc)
  · rw [String.toList_append, List.mem_append] at hc
    exact hc.elim (fun h => .inr (by simpa using h)) fun h => .inl (hdigit h)

theorem Index.toString_ne_nil (i : Int64) : (toString i).toList ≠ [] := by
  have hdigits (n : Nat) : n.repr.toList ≠ [] := by
    rw [Nat.repr_eq_ofList_toDigits, String.toList_ofList]
    exact Nat.toDigits_ne_nil
  change i.toInt.repr.toList ≠ []
  rw [Int.repr_eq_if]
  split
  · exact hdigits _
  · simp

namespace Network

/-- A node of this name and operation has no inputs, though it should have. -/
def sourceless (name : String) (op : Operation) : Cause :=
  .invalidArgument (s!"node {name} ({op.name}) has no inputs but is neither " ++
    "an InputValue nor a LearnableParameter")

/-- Two nodes have this name. -/
def ambiguous (name : String) : Cause :=
  .invalidArgument s!"multiple nodes with the name {name}"

end Network

namespace Cause

/-- The cause is not that a node has no inputs. -/
def Sourced (c : Cause) : Prop :=
  ∀ name op, c ≠ Network.sourceless name op

/-- The cause is not that expressions are nested too deep. -/
def Shallow (c : Cause) : Prop :=
  ∀ limit, c ≠ recursionLimit limit

/-- The cause has nothing to do with the nodes of a network: it is not that one of them has no
    inputs, or that two have the same name, which only the programs that collect and sort nodes
    can report. Nor has it to do with how deep expressions are nested. -/
structure Ordinary (c : Cause) : Prop where
  sourced : c.Sourced
  unambiguous : ∀ name, c ≠ Network.ambiguous name
  shallow : c.Shallow

theorem sourced_of_start {message : String} (h : message.toList.take 2 ≠ ['n', 'o']) :
    (invalidArgument message).Sourced := by
  intro name op heq
  apply h
  rw [invalidArgument.inj heq]
  simp [toString]

theorem ambiguous_sourced (name : String) : (Network.ambiguous name).Sourced :=
  sourced_of_start (by simp [toString])

theorem sourceless_ne_ambiguous (name : String) (op : Operation) (other : String) :
    Network.sourceless name op ≠ Network.ambiguous other := by
  intro heq
  have hstart := congrArg (·.toList.head?) (invalidArgument.inj heq)
  simp [toString] at hstart

/-- The two reports about nodes start with these letters, so the first two letters of a message
    are enough to tell it from them. -/
theorem ordinary_of_start {message : String} (hn : message.toList.take 2 ≠ ['n', 'o'])
    (hm : message.toList.take 2 ≠ ['m', 'u']) : (invalidArgument message).Ordinary where
  sourced := sourced_of_start hn
  unambiguous name heq := by
    apply hm
    rw [invalidArgument.inj heq]
    simp [toString]
  shallow := by rintro limit ⟨⟩

/-- A message that starts with an index is about that index. -/
theorem ordinary_of_index (i : Int64) (message : String) :
    (invalidArgument (toString i ++ message)).Ordinary := by
  obtain ⟨c, rest, htext⟩ := List.exists_cons_of_ne_nil (Index.toString_ne_nil i)
  have hc : c.isDigit ∨ c = '-' := Index.toString_chars i c (by simp [htext])
  have hstart (d e : Char) (hd : ¬(d.isDigit ∨ d = '-')) :
      (toString i ++ message).toList.take 2 ≠ [d, e] := by
    intro h
    have hhead := congrArg List.head? h
    simp only [String.toList_append, htext, List.cons_append, List.take_succ_cons, List.head?_cons,
      Option.some.injEq] at hhead
    exact hd (hhead ▸ hc)
  exact ordinary_of_start (hstart 'n' 'o' (by decide)) (hstart 'm' 'u' (by decide))

theorem sourced_of_code {c : Cause} (h : c.code ≠ .invalidArgument) : c.Sourced := by
  intro name op heq
  apply h
  rw [heq]
  rfl

theorem shallow_of_code {c : Cause} (h : c.code ≠ .recursionLimit) : c.Shallow := by
  intro limit heq
  apply h
  rw [heq]
  rfl

/-- Most causes are told apart by their code alone. -/
theorem ordinary_of_code {c : Cause} (h : c.code ≠ .invalidArgument ∧ c.code ≠ .recursionLimit) :
    c.Ordinary where
  sourced := sourced_of_code h.1
  unambiguous name heq := by
    apply h.1
    rw [heq]
    rfl
  shallow := shallow_of_code h.2

end Cause

namespace EvalError

theorem typeMismatch_ordinary (expected found : String) (location : Location) :
    (typeMismatch expected found location).cause.Ordinary :=
  Cause.ordinary_of_code (by simp [typeMismatch, Cause.code])

theorem unknownIdentifier_ordinary (name : String) (location : Location) :
    (unknownIdentifier name location).cause.Ordinary :=
  Cause.ordinary_of_code (by simp [unknownIdentifier, Cause.code])

end EvalError

/-- The check fails with errors of these causes only. -/
def ChecksRaise (P : Cause → Prop) (x : Except EvalError α) : Prop :=
  ∀ e, x = .error e → P e.cause

section Checks

variable {P : Cause → Prop}

@[simp]
theorem checksRaise_ok (a : α) : ChecksRaise P (.ok a) := by
  intro e h
  cases h

@[simp]
theorem checksRaise_error {e : EvalError} :
    ChecksRaise P (.error e : Except EvalError α) ↔ P e.cause := by
  constructor
  · intro h
    exact h e rfl
  · intro h e' h'
    cases h'
    exact h

theorem ChecksRaise.bind {x : Except EvalError α} {f : α → Except EvalError β}
    (hx : ChecksRaise P x) (hf : ∀ a, ChecksRaise P (f a)) : ChecksRaise P (x >>= f) := by
  cases x with
  | ok a => exact hf a
  | error e => exact checksRaise_error.2 (hx e rfl)

theorem ChecksRaise.mapM {f : α → Except EvalError β} (hf : ∀ a, ChecksRaise P (f a))
    (xs : List α) : ChecksRaise P (xs.mapM f) := by
  induction xs with
  | nil => exact checksRaise_ok _
  | cons x xs ih =>
    rw [List.mapM_cons]
    exact (hf x).bind fun y => ih.bind fun ys => checksRaise_ok _

theorem ChecksRaise.sourced {x : Except EvalError α} (hx : ChecksRaise Cause.Ordinary x) :
    ChecksRaise Cause.Sourced x :=
  fun e h => (hx e h).sourced

theorem ChecksRaise.shallow {x : Except EvalError α} (hx : ChecksRaise Cause.Ordinary x) :
    ChecksRaise Cause.Shallow x :=
  fun e h => (hx e h).shallow

end Checks

namespace Program

variable {P : Cause → Prop}

/-- Every error that the program itself may raise, whatever its calls answer, has one of these
    causes. -/
def Raises (P : Cause → Prop) : Program α → Prop
  | done _ => True
  | raise e => P e.cause
  | access _ next => ∀ reply, (next reply).Raises P
  | call _ next => ∀ reply, (next reply).Raises P

theorem Raises.imp {Q : Cause → Prop} {p : Program α} (hp : p.Raises P)
    (hPQ : ∀ c, P c → Q c) : p.Raises Q := by
  induction p with
  | done result => trivial
  | raise e => exact hPQ _ hp
  | access a next ih => exact fun reply => ih reply (hp reply)
  | call c next ih => exact fun reply => ih reply (hp reply)

/-- A program that goes on with another one raises what either of them does. What calls raise is
    not counted here. -/
theorem Raises.bind {p : Program α} {f : α → Program β} (hp : p.Raises P)
    (hf : ∀ a, (f a).Raises P) : (p >>= f).Raises P := by
  change (p.bind f).Raises P
  induction p with
  | done result => exact hf result
  | raise e => exact hp
  | access a next ih => exact fun reply => ih reply (hp reply)
  | call c next ih => exact fun reply => ih reply (hp reply)

theorem Raises.ofExcept {x : Except EvalError α} (hx : ChecksRaise P x) :
    (Program.ofExcept x).Raises P := by
  cases x with
  | ok a => trivial
  | error e => exact hx e rfl

theorem Raises.check {x : Except EvalError α} {f : α → Program β} (hx : ChecksRaise P x)
    (hf : ∀ a, (f a).Raises P) : (Program.ofExcept x >>= f).Raises P :=
  .bind (.ofExcept hx) hf

theorem Raises.mapM {f : α → Program β} (hf : ∀ a, (f a).Raises P) (xs : List α) :
    (xs.mapM f).Raises P := by
  induction xs with
  | nil => trivial
  | cons x xs ih =>
    rw [List.mapM_cons]
    exact .bind (hf x) fun y => .bind ih fun ys => trivial

theorem Raises.sourced {p : Program α} (hp : p.Raises Cause.Ordinary) : p.Raises Cause.Sourced :=
  hp.imp fun _ h => h.sourced

theorem Raises.shallow {p : Program α} (hp : p.Raises Cause.Ordinary) : p.Raises Cause.Shallow :=
  hp.imp fun _ h => h.shallow

end Program

open Cause (Ordinary)

namespace Value

variable (v : Value)

@[simp]
theorem mismatch_ordinary (expected : String) : (v.mismatch expected).cause.Ordinary :=
  EvalError.typeMismatch_ordinary expected v.typeName v.location

theorem asNumber_raises : ChecksRaise Ordinary v.asNumber := by
  unfold asNumber
  split <;> simp

theorem asIndex_raises : ChecksRaise Ordinary v.asIndex := by
  refine v.asNumber_raises.bind fun x => ?_
  split
  · exact checksRaise_ok _
  · exact checksRaise_error.2 (EvalError.typeMismatch_ordinary _ _ _)

theorem asTruth_raises : ChecksRaise Ordinary v.asTruth := by
  unfold asTruth
  split <;> simp

theorem asText_raises : ChecksRaise Ordinary v.asText := by
  unfold asText
  split <;> simp

theorem asRecord_raises : ChecksRaise Ordinary v.asRecord := by
  unfold asRecord
  split <;> simp

theorem asArray_raises : ChecksRaise Ordinary v.asArray := by
  unfold asArray
  split <;> simp

theorem asFunction_raises : ChecksRaise Ordinary v.asFunction := by
  unfold asFunction
  split <;> simp

theorem asNode_raises : ChecksRaise Ordinary v.asNode := by
  unfold asNode
  split <;> simp

end Value

namespace Program

theorem forceFound_raises (found : Option CellId) {missing : EvalError}
    (h : missing.cause.Ordinary) : (forceFound found missing).Raises Ordinary := by
  cases found with
  | some cell => exact fun _ => trivial
  | none => exact h

theorem lookup_raises (scope : RecordId) (name : String) (location : Location) :
    (lookup scope name location).Raises Ordinary :=
  .bind (fun _ => trivial) fun _ =>
    forceFound_raises _ (EvalError.unknownIdentifier_ordinary name location)

theorem field_raises (fields : RecordId) (name : String) : (field fields name).Raises Ordinary :=
  .bind (.bind (fun _ => trivial) fun _ => trivial) fun _ =>
    forceFound_raises _ (EvalError.unknownIdentifier_ordinary name .unknown)

theorem optionalField_raises (fields : RecordId) (name : String) :
    (optionalField fields name).Raises Ordinary := by
  refine .bind (.bind (fun _ => trivial) fun _ => trivial) fun found => ?_
  cases found with
  | some cell => exact fun _ => trivial
  | none => trivial

theorem forceAll_raises (cells : List CellId) : (forceAll cells).Raises Ordinary :=
  .mapM (f := force) (fun _ _ => trivial) cells

theorem memberOf_raises (v : Value) (name : String) (location : Location) :
    (memberOf v name location).Raises Ordinary := by
  unfold memberOf memberCell?
  cases v.payload with
  | record id =>
    refine .bind (.bind (fun _ => trivial) fun _ => trivial) fun _ => ?_
    exact forceFound_raises _ (EvalError.unknownIdentifier_ordinary name location)
  | object o =>
    cases o with
    | network id =>
      refine .bind (.bind (fun _ => trivial) fun n => ?_) fun _ => ?_
      · cases n.find? name with
        | some node => exact fun _ => trivial
        | none => exact fun _ => trivial
      · exact forceFound_raises _ (EvalError.unknownIdentifier_ordinary name location)
    | _ => exact EvalError.typeMismatch_ordinary _ _ _
  | _ => exact EvalError.typeMismatch_ordinary _ _ _

end Program

namespace Function

theorem bindPositional_raises (scope : RecordId) (args : List (String × Value)) :
    (bindPositional scope args).Raises Ordinary := by
  induction args with
  | nil => trivial
  | cons x rest ih => exact .bind (fun _ _ => trivial) fun _ => ih

theorem bindDefaults_raises (scope : RecordId) (passed : List (String × Value))
    (defaults : List (String × CellId)) :
    (bindDefaults scope passed defaults).Raises Ordinary := by
  induction defaults with
  | nil => trivial
  | cons x rest ih =>
    refine .bind (fun _ => trivial) fun r => ?_
    dsimp only
    split
    · exact ih
    · exact fun _ _ => ih

theorem bindNamed_raises (scope : RecordId) (location : Location) (args : List (String × Value)) :
    (bindNamed scope location args).Raises Ordinary := by
  induction args with
  | nil => trivial
  | cons x rest ih =>
    refine .bind (fun _ => trivial) fun r => ?_
    split
    · exact Cause.ordinary_of_start (by simp [toString]) (by simp [toString])
    · exact .bind (fun _ _ => trivial) fun _ => ih

theorem apply_raises (f : Function) (args : List Value) (named : List (String × Value))
    (path : String) (location : Location) : (f.apply args named path location).Raises Ordinary := by
  refine .bind ?_ fun scope => fun _ => trivial
  unfold bindArguments
  split
  · refine .bind (fun _ => trivial) fun scope => ?_
    refine .bind (bindPositional_raises scope _) fun _ => ?_
    refine .bind (bindDefaults_raises scope _ _) fun _ => ?_
    exact .bind (bindNamed_raises scope location _) fun _ => trivial
  · exact Cause.ordinary_of_code (by simp [Cause.code])

end Function

namespace Render

variable (spec : FormatSpec)

theorem members_raises (found : Array String) (named : List (String × Member)) :
    (members spec found named).Raises Ordinary := by
  induction named generalizing found with
  | nil => trivial
  | cons p named ih =>
    exact .bind (fun _ => trivial) fun v => .bind (fun _ => trivial) fun _ => ih _

theorem elements_raises (found : Array String) (values : List Value) :
    (elements spec found values).Raises Ordinary := by
  induction values generalizing found with
  | nil => trivial
  | cons v values ih => exact .bind (fun _ => trivial) fun _ => ih _

theorem value_raises (v : Value) : (value spec v).Raises Ordinary := by
  unfold value
  split
  · trivial
  · trivial
  · trivial
  · exact .bind (fun _ => trivial) fun r => .bind (members_raises spec #[] _) fun _ => trivial
  · refine .bind (Program.forceAll_raises _) fun values => ?_
    exact .bind (elements_raises spec #[] values) fun _ => trivial
  · trivial
  · exact fun _ => trivial

end Render

namespace Node

theorem finalize_raises (id : NodeId) : (finalize id).Raises Ordinary := by
  refine .bind (fun _ => trivial) fun n => ?_
  split
  · exact .bind (fun _ => trivial) fun v => .check v.asNode_raises fun _ _ => trivial
  · trivial

/-- The fields that are counts. -/
theorem dimension_raises (fields : RecordId) {name : String}
    (h : name ∈ ["outDim", "inDim", "first", "num"]) : (dimension fields name).Raises Ordinary := by
  refine .bind (Program.field_raises fields name) fun v => .check v.asIndex_raises fun n => ?_
  split
  · simp only [List.mem_cons, List.not_mem_nil, or_false] at h
    apply Cause.ordinary_of_start <;> rcases h with rfl | rfl | rfl | rfl <;> simp [toString]
  · trivial

theorem inputValues_raises (fields : RecordId) (op : Operation) :
    (inputValues fields op).Raises Ordinary := by
  have hcount (values : List Value) {e : EvalError} (he : e.cause.Ordinary) :
      Program.Raises Ordinary
        (if values.length = op.inputCount?.getD 0 then return values else .raise e) := by
    split
    · trivial
    · exact he
  refine .bind (Program.field_raises fields "inputs") fun inputs => ?_
  dsimp only
  split
  · refine .bind (Program.forceAll_raises _) fun values => hcount values ?_
    exact Cause.ordinary_of_start (by simp [toString]) (by simp [toString])
  · exact hcount [inputs] (Cause.ordinary_of_start (by simp [toString]) (by simp [toString]))

theorem inputNodes_raises (fields : RecordId) (op : Operation) :
    (inputNodes fields op).Raises Ordinary :=
  .bind (inputValues_raises fields op) fun values =>
    .mapM (fun v => .ofExcept v.asNode_raises) values

theorem scaleInputs_raises (values : List Value) : ChecksRaise Ordinary (scaleInputs values) := by
  cases values with
  | nil => exact checksRaise_ok _
  | cons factor inputs =>
    refine factor.asNumber_raises.bind fun x => .bind ?_ fun nodes => checksRaise_ok _
    exact ChecksRaise.mapM Value.asNode_raises inputs

theorem ofFields_raises (op : Operation) (tag : String) (fields : RecordId) :
    (ofFields op tag fields).Raises Ordinary := by
  cases op with
  | learnableParameter =>
    refine .bind (dimension_raises fields (by simp)) fun outDim => ?_
    exact .bind (dimension_raises fields (by simp)) fun inDim => trivial
  | inputValue => trivial
  | delay =>
    refine .bind (.bind (fun _ => trivial) fun _ => trivial) fun found => ?_
    cases found with
    | none => exact EvalError.unknownIdentifier_ordinary "input" .unknown
    | some cell =>
      exact .bind (Program.field_raises fields "deltaT") fun deltaT =>
        .check deltaT.asIndex_raises fun _ => trivial
  | scale =>
    refine .bind (inputValues_raises fields .scale) fun values => ?_
    exact .check (scaleInputs_raises values) fun _ => trivial
  | rowSlice =>
    refine .bind (dimension_raises fields (by simp)) fun first => ?_
    refine .bind (dimension_raises fields (by simp)) fun num => ?_
    exact .bind (inputNodes_raises fields .rowSlice) fun _ => trivial
  | _ => exact .bind (inputNodes_raises fields _) fun _ => trivial

theorem selectedOperation_raises (fields : RecordId) :
    (selectedOperation fields).Raises Ordinary := by
  refine .bind (Program.field_raises fields "class") fun v => .check v.asText_raises fun name => ?_
  split
  · trivial
  · exact Cause.ordinary_of_start (by simp [toString]) (by simp [toString])

theorem tagOf_raises (fields : RecordId) : (tagOf fields).Raises Ordinary := by
  refine .bind (Program.optionalField_raises fields "optionalTag") fun found => ?_
  cases found with
  | some v => exact .ofExcept v.asText_raises
  | none => trivial

/-- Making a node fails for what its fields hold. Only a network reports of a node that it has no
    inputs. -/
theorem construct_raises (fields : RecordId) (location : Location) (path : String) :
    (construct fields location path).Raises Ordinary := by
  refine .bind (selectedOperation_raises fields) fun op => ?_
  refine .bind (tagOf_raises fields) fun tag => ?_
  refine .bind (ofFields_raises op tag fields) fun n => ?_
  exact fun _ => trivial

end Node

namespace Network

theorem walk_raises (fields : RecordId) : (walk fields).Raises Ordinary := by
  refine .bind (fun _ => trivial) fun r => ?_
  refine .bind (.bind (Program.forceAll_raises _) fun _ => trivial) fun roots => ?_
  exact .bind (fun _ => trivial) fun _ => trivial

/-- Collecting nodes only fails where two have the same name. -/
theorem addAll_raises (c : Collected) (location : Location) (ids : List NodeId) :
    (c.addAll location ids).Raises fun cause => ∃ name, cause = ambiguous name := by
  have hcheck (c c' : Collected) (name : String) :
      Program.Raises (fun cause => ∃ name, cause = ambiguous name)
        (if c.nodes.any (·.1 == name) then
          .raise (.invalidArgument s!"multiple nodes with the name {name}" location)
        else return c') := by
    split
    · exact ⟨name, rfl⟩
    · trivial
  induction ids generalizing c with
  | nil => trivial
  | cons id ids ih =>
    refine .bind (.bind (fun _ => trivial) fun n => ?_) fun c' => ih c'
    by_cases hnamed : n.isNamed = true
    · simp only [hnamed, if_true]
      exact hcheck c _ _
    · simp only [hnamed]
      exact .bind (fun _ => trivial) fun _ => hcheck c _ _

/-- Sorting nodes only fails where one has no inputs. -/
theorem sources_raises (location : Location) (nodes : List (String × NodeId)) :
    (sources location nodes).Raises fun c => ∃ name op, c = sourceless name op := by
  induction nodes with
  | nil => trivial
  | cons p nodes ih =>
    refine .bind (fun _ => trivial) fun n => ?_
    split
    · split
      · exact .bind ih fun _ => trivial
      · exact .bind ih fun _ => trivial
      · exact ⟨p.1, n.operation, rfl⟩
    · exact ih

theorem tieStep_raises (work visited : List Object) : (tieStep work visited).Raises Ordinary := by
  cases work with
  | nil => trivial
  | cons o work =>
    unfold tieStep
    dsimp only
    split
    · exact fun _ => trivial
    · split
      · exact .bind (Node.finalize_raises _) fun _ => fun _ _ => trivial
      · exact fun _ _ => trivial

end Network

theorem Registry.runtimeType_raises (r : Registry) (name : String) (location : Location) :
    ChecksRaise Ordinary (r.runtimeType name location) := by
  unfold runtimeType
  split
  · exact checksRaise_ok _
  · exact checksRaise_error.2 (Cause.ordinary_of_code (by simp [Cause.code]))

theorem Registry.instantiate_raises {P : Cause → Prop} {t : RuntimeType} {fields : RecordId}
    {location : Location} {path : String} (ht : (t.construct fields location path).Raises P) :
    (instantiate t fields location path).Raises P := by
  refine .bind ht fun v => ?_
  split
  · exact fun _ => trivial
  · trivial

namespace TextFunction

theorem parse_raises (how : String) (location : Location) :
    ChecksRaise Ordinary (FormatSpec.parse how location) := by
  unfold FormatSpec.parse
  split
  · exact checksRaise_error.2 (Cause.ordinary_of_start (by simp [toString]) (by simp [toString]))
  · split
    · exact checksRaise_ok _
    · exact checksRaise_error.2 (Cause.ordinary_of_start (by simp [toString]) (by simp [toString]))

theorem result_raises (what : String) (selector arg : Value) (fields : RecordId) :
    (result what selector arg fields).Raises Ordinary := by
  unfold result
  split
  · refine .bind (Program.field_raises fields _) fun how => .check how.asText_raises fun _ => ?_
    exact .check (parse_raises _ _) fun _ _ => trivial
  · refine .check arg.asIndex_raises fun code => ?_
    split
    · trivial
    · exact Cause.ordinary_of_index code _
  · refine .bind (Program.field_raises fields _) fun pos => .check pos.asIndex_raises fun _ => ?_
    refine .bind (Program.field_raises fields _) fun n => .check n.asIndex_raises fun _ => ?_
    exact .check arg.asText_raises fun _ => trivial
  · refine .bind (Program.field_raises fields _) fun what => ?_
    refine .bind (Program.field_raises fields _) fun with' => ?_
    refine .check arg.asText_raises fun _ => .check what.asText_raises fun _ => ?_
    exact .check with'.asText_raises fun _ => trivial
  · exact Cause.ordinary_of_start (by simp [toString]) (by simp [toString])

theorem construct_raises (fields : RecordId) (location : Location) (path : String) :
    (construct fields location path).Raises Ordinary := by
  refine .bind (Program.field_raises fields "what") fun what => ?_
  refine .check what.asText_raises fun _ => ?_
  refine .bind (Program.field_raises fields "arg") fun arg => ?_
  exact .bind (result_raises _ _ arg fields) fun _ => trivial

end TextFunction

namespace NumericFunction

theorem result_raises (what : String) (selector arg : Value) :
    ChecksRaise Ordinary (result what selector arg) := by
  unfold result
  split
  · exact arg.asNumber_raises.bind fun _ => checksRaise_ok _
  · refine .bind ?_ fun _ => checksRaise_ok _
    unfold length
    split
    · exact checksRaise_ok _
    · exact checksRaise_ok _
    · exact checksRaise_error.2 (arg.mismatch_ordinary _)
  · exact checksRaise_error.2 (Cause.ordinary_of_start (by simp [toString]) (by simp [toString]))

theorem construct_raises (fields : RecordId) (location : Location) (path : String) :
    (construct fields location path).Raises Ordinary := by
  refine .bind (Program.field_raises fields "what") fun what => ?_
  refine .check what.asText_raises fun _ => ?_
  refine .bind (Program.field_raises fields "arg") fun arg => ?_
  exact .check (result_raises _ _ arg) fun _ => trivial

end NumericFunction

theorem PrintAction.construct_raises (fields : RecordId) (location : Location) (path : String) :
    (PrintAction.construct fields location path).Raises Ordinary := by
  refine .bind (Program.field_raises fields "what") fun what => .bind ?_ fun _ => ?_
  · unfold textOf
    split
    · trivial
    · exact fun _ => trivial
  · exact fun _ _ => trivial

theorem FailAction.construct_raises (fields : RecordId) (location : Location) (path : String) :
    (FailAction.construct fields location path).Raises Ordinary := by
  refine .bind (Program.field_raises fields "what") fun what => ?_
  refine .check what.asText_raises fun _ => ?_
  exact Cause.ordinary_of_code (by simp [Cause.code])

namespace Operator

variable (site : Site) (left right : Value)

theorem invalidOperands_ordinary : (site.invalidOperands left right).cause.Ordinary :=
  Cause.ordinary_of_code (by simp [Site.invalidOperands, Cause.code])

theorem orInvalid_raises (result : Option Value) :
    (orInvalid site left right result).Raises Ordinary := by
  cases result with
  | some v => trivial
  | none => exact invalidOperands_ordinary site left right

/-- Operators on objects make nodes. -/
theorem onObjects_raises : (onObjects .standard site left right).Raises Ordinary := by
  refine onObjects_elim (P := (·.Raises Ordinary)) ?_ (invalidOperands_ordinary site)
  intro className first second _
  refine .bind (.bind (fun _ => trivial) fun fields => fun _ _ _ _ _ _ => trivial) ?_
  intro fields
  exact Registry.instantiate_raises (Node.construct_raises fields site.location site.path)

/-- Operators refuse operands with a code of their own. The nodes that they make are made as any
    others. -/
theorem apply_raises : (apply .standard site left right).Raises Ordinary := by
  have hresult := orInvalid_raises site left right
  exact apply_elim (P := (·.Raises Ordinary)) (fun _ _ => hresult _) (fun _ _ => hresult _)
    (fun _ _ => hresult _) (onObjects_raises site left right)
    (invalidOperands_ordinary site left right)

end Operator

namespace Evaluator

theorem addMembers_raises (scope : RecordId) (path : String) (bindings : List Binding) :
    (addMembers scope path bindings).Raises Ordinary := by
  induction bindings with
  | nil => trivial
  | cons binding rest ih =>
    refine .bind (fun _ => trivial) fun r => ?_
    split
    · exact Cause.ordinary_of_start (by simp [toString]) (by simp [toString])
    · exact fun _ _ => ih

theorem suspendDefaults_raises (scope : RecordId) (path : String) (found : List (String × CellId))
    (bindings : List Binding) : (suspendDefaults scope path found bindings).Raises Ordinary := by
  induction bindings generalizing found with
  | nil => trivial
  | cons binding rest ih => exact fun _ => ih _

theorem evaluateArguments_raises (scope : RecordId) (path : String) (found : Array Value)
    (args : List (Expr × String)) :
    (evaluateArguments scope path found args).Raises Ordinary := by
  induction args generalizing found with
  | nil => trivial
  | cons p rest ih => exact fun _ => ih _

theorem evaluateNamed_raises (scope : RecordId) (path : String) (found : Array (String × Value))
    (bindings : List Binding) : (evaluateNamed scope path found bindings).Raises Ordinary := by
  induction bindings generalizing found with
  | nil => trivial
  | cons binding rest ih =>
    refine .bind (fun _ => trivial) fun v => ?_
    split
    · exact Cause.ordinary_of_start (by simp [toString]) (by simp [toString])
    · exact ih _

theorem evaluateApply_raises (func : Expr) (args : ArgList) (scope : RecordId) (path : String)
    (location : Location) : (evaluateApply func args scope path location).Raises Ordinary := by
  refine .bind (fun _ => trivial) fun v => .check v.asFunction_raises fun f => ?_
  dsimp only
  split
  · refine .bind (evaluateArguments_raises scope path #[] _) fun positional => ?_
    refine .bind (evaluateNamed_raises scope path #[] _) fun named => ?_
    exact f.apply_raises positional named path location
  · exact Cause.ordinary_of_code (by simp [Cause.code])

theorem evaluateItems_raises (scope : RecordId) (path : String) (count : Nat)
    (found : Array CellId) (items : List Expr) :
    (evaluateItems scope path count found items).Raises Ordinary := by
  induction items generalizing count found with
  | nil => trivial
  | cons item rest ih =>
    refine .bind (fun _ => trivial) fun v => ?_
    split
    · exact ih _ _
    · exact fun _ => ih _ _

theorem suspendElements_raises (initializer : Function) (initLocation location : Location)
    (path : String) (found : Array CellId) (remaining : Nat) (index : Int64) :
    (suspendElements initializer initLocation location path found remaining index).Raises
      Ordinary := by
  induction remaining generalizing found index with
  | zero => trivial
  | succ remaining ih => exact fun _ => ih _ _

theorem evaluateComprehension_raises (ev : Evaluator) (first last init : Expr) (scope : RecordId)
    (path : String) (location : Location) :
    (ev.evaluateComprehension first last init scope path location).Raises Ordinary := by
  refine .bind (fun _ => trivial) fun low => .check low.asIndex_raises fun low => ?_
  refine .bind (fun _ => trivial) fun high => .check high.asIndex_raises fun high => ?_
  refine .bind (fun _ => trivial) fun v => .check v.asFunction_raises fun f => ?_
  dsimp only
  split
  · exact Cause.ordinary_of_code (by simp [Cause.code])
  · split
    · exact Cause.ordinary_of_start (by simp [toString]) (by simp [toString])
    · exact .bind (suspendElements_raises f _ location path #[] _ low) fun _ => trivial

theorem elementAt_raises (a : LazyArray) (index : Int64) (location : Location) :
    (elementAt a index location).Raises Ordinary := by
  unfold elementAt
  split
  · exact fun _ => trivial
  · exact Cause.ordinary_of_code (by simp [Cause.code])

variable {ev : Evaluator} (hev : ev.registry = .standard)

include hev

theorem evaluateUnary_raises (op : UnaryOp) (operand : Expr) (scope : RecordId) (path : String)
    (location : Location) : (ev.evaluateUnary op operand scope path location).Raises Ordinary := by
  cases op with
  | not => exact .bind (fun _ => trivial) fun v => .check v.asTruth_raises fun _ => trivial
  | plus =>
    refine .bind (fun _ => trivial) fun v => ?_
    split
    · trivial
    · trivial
    · exact EvalError.typeMismatch_ordinary _ _ _
  | neg =>
    refine .bind (fun _ => trivial) fun v => ?_
    split
    · trivial
    · rw [hev]
      exact Operator.apply_raises _ _ v
    · exact EvalError.typeMismatch_ordinary _ _ _

/-- All expressions but those that instantiate a type. -/
theorem evaluateKind_raises {kind : ExprKind}
    (hkind : ∀ typeName fields, kind ≠ .new typeName fields) (location : Location)
    (scope : RecordId) (path : String) :
    (ev.evaluateKind kind location scope path).Raises Ordinary := by
  cases kind with
  | new typeName fields => exact absurd rfl (hkind typeName fields)
  | number | text | truth => trivial
  | conditional condition thenBranch elseBranch =>
    refine .bind (fun _ => trivial) fun v => .check v.asTruth_raises fun b => ?_
    exact fun _ => trivial
  | lambda params body => exact .bind (suspendDefaults_raises scope path [] _) fun _ => trivial
  | apply func args => exact evaluateApply_raises func args scope path location
  | record members =>
    exact .bind (fun _ => trivial) fun record =>
      .bind (addMembers_raises record path members) fun _ => trivial
  | var name => exact Program.lookup_raises scope name location
  | member base member =>
    exact .bind (fun _ => trivial) fun v => Program.memberOf_raises v _ _
  | array items => exact .bind (evaluateItems_raises scope path 0 #[] items) fun _ => trivial
  | comprehension first last init =>
    exact ev.evaluateComprehension_raises first last init scope path location
  | index base index =>
    refine .bind (fun _ => trivial) fun v => .check v.asArray_raises fun a => ?_
    refine .bind (fun _ => trivial) fun i => .check i.asIndex_raises fun i => ?_
    exact elementAt_raises a i index.location
  | unary op operand => exact evaluateUnary_raises hev op operand scope path location
  | binary op left right =>
    refine .bind (fun _ => trivial) fun l => .bind (fun _ => trivial) fun r => ?_
    rw [hev]
    exact Operator.apply_raises _ l r

end Evaluator

end NetDesc
