import NetDesc.Proofs.Json.Rendering
import NetDesc.Proofs.Json.Skipping
import NetDesc.Proofs.Tree.Documents
import NetDesc.Tree.Reader

namespace NetDesc

/-- The largest of some depths. -/
def deepest (depths : List Nat) : Nat :=
  depths.foldr max 0

namespace Tree

open Json (Token IsValue Opened)
open Json.Token (joined Separated Spaced)

/-- The document of a part that can be a default. -/
def Part.defaultDocument? : Part → Option Json
  | .span s => some (spanDocument s)
  | .location l => some (locationDocument l)
  | .list [] => some (.list [])
  | _ => none

/-- The document that is written where a field has its default. -/
def Field.defaultDocument? (f : Field) : Option Json :=
  f.default?.bind Part.defaultDocument?

/-- A document in one of its forms: its tokens and how deep the brackets in them are nested,
    where unknown fields do not count. -/
structure Formed where
  json : Json
  nesting : Nat
  tokens : List Token

/-- A field that is given, with its document in one of the forms. -/
structure Given extends Formed where
  field : Field

/-- What stands in an object that describes a group. -/
inductive Entry where
  | known (given : Given)
  | unknown (name : String) (value : List Token)

namespace Entry

def given? : Entry → Option Given
  | known given => some given
  | unknown .. => none

/-- The key, a colon and the value. -/
def tokens : Entry → List Token
  | known given => .text (.ok given.field.name) :: .colon :: given.tokens
  | unknown name value => .text (.ok name) :: .colon :: value

/-- The fields that are given by some entries. -/
def givens (entries : List Entry) : List Given :=
  entries.filterMap given?

end Entry

/-- The tokens of a document's forms, with their nesting. -/
inductive Form : Shape → Json → Nat → List Token → Prop
  | number {x : Float} {n : Json.Numeral} (h : n.Spelled (Json.realText x).toList) :
    Form .number (.real x) 0 [.number n]
  | text (s : String) : Form .text (.text s) 0 [.text (.ok s)]
  | flag (b : Bool) : Form .flag (.truth b) 0 [.truth b]
  | word {w : UInt32} {n : Json.Numeral} (h : n.Spelled (toString w).toList) :
    Form .word (.word w) 0 [.number n]
  | list {item : Shape} {items : List Formed}
      (h : ∀ i ∈ items, Form item i.json i.nesting i.tokens) :
    Form (.list item) (.list (items.map (·.json))) (1 + deepest (items.map (·.nesting)))
      (.openBracket :: (joined (items.map (·.tokens)) ++ [.closeBracket]))
  /-- The fields in any order and others among them. Fields with a default that is also what is
      written for them may be omitted. -/
  | object {g : Group} {fields : List (Field × Json)} (hfields : fields.map (·.1) = g.fields)
      {entries : List Entry} {omitted : List (Field × Json)}
      (hgiven : fields.Perm ((Entry.givens entries).map (fun k => (k.field, k.json)) ++ omitted))
      (homitted : ∀ f ∈ omitted, f.1.defaultDocument? = some f.2)
      (hunknown : ∀ name value, .unknown name value ∈ entries →
        name ∉ g.fields.map (·.name) ∧ IsValue value)
      (h : ∀ k ∈ Entry.givens entries, Form k.field.shape k.json k.nesting k.tokens) :
    Form (.group g) (.object (fields.map fun f => (f.1.name, f.2)))
      (1 + deepest ((Entry.givens entries).map (·.nesting)))
      (.openBrace :: (joined (entries.map Entry.tokens) ++ [.closeBrace]))
  /-- The fields in the order of declaration. The last ones may be omitted if they have defaults
      that are also what is written for them. -/
  | array {g : Group} {given : List Given} {omitted : List (Field × Json)}
      (hfields : given.map (·.field) ++ omitted.map (·.1) = g.fields)
      (homitted : ∀ f ∈ omitted, f.1.defaultDocument? = some f.2)
      (h : ∀ k ∈ given, Form k.field.shape k.json k.nesting k.tokens) :
    Form (.group g)
      (.object (((given.map fun k => (k.field, k.json)) ++ omitted).map fun f => (f.1.name, f.2)))
      (1 + deepest (given.map (·.nesting)))
      (.openBracket :: (joined (given.map (·.tokens)) ++ [.closeBracket]))
  /-- The bare name of an alternative without contents. -/
  | name {c : Choice} {name : String} (hvariant : ⟨name, .nothing⟩ ∈ c.variants) :
    Form (.choice c) (.text name) 0 [.text (.ok name)]
  /-- Such a name as the only key of an object, with null. -/
  | nullName {c : Choice} {name : String} (hvariant : ⟨name, .nothing⟩ ∈ c.variants) :
    Form (.choice c) (.text name) 1
      [.openBrace, .text (.ok name), .colon, .null, .closeBrace]
  | variant {c : Choice} {name : String} {contents : Contents} {shape : Shape} {j : Json}
      {nesting : Nat} {tokens : List Token} (hvariant : ⟨name, contents⟩ ∈ c.variants)
      (hshape : contents.shape? = some shape) (h : Form shape j nesting tokens) :
    Form (.choice c) (variant name j) (1 + nesting)
      (.openBrace :: .text (.ok name) :: .colon :: (tokens ++ [.closeBrace]))

section Tokens

variable {shape : Shape} {j : Json} {nesting : Nat} {tokens : List Token}

/-- The tokens are not empty and do not start with a closing bracket. -/
def StartsValue (tokens : List Token) : Prop :=
  ∃ t rest, tokens = t :: rest ∧ t ≠ .closeBracket

theorem Form.startsValue (h : Form shape j nesting tokens) : StartsValue tokens := by
  cases h with
  | _ => exact ⟨_, _, rfl, by simp⟩

theorem StartsValue.length_pos (h : StartsValue tokens) : 0 < tokens.length := by
  obtain ⟨t, rest, rfl, -⟩ := h
  simp

/-- A number in a form is followed by a separator, if anything follows it. -/
theorem Form.separated (h : Form shape j nesting tokens) : Separated tokens := by
  induction h with
  | list _ ih =>
    refine .cons id (Token.separated_joined ?_ trivial (.singleton _))
    simpa using ih
  | array _ _ _ ih =>
    refine .cons id (Token.separated_joined ?_ trivial (.singleton _))
    simpa using ih
  | @object g fields _ entries omitted _ _ hunknown _ ih =>
    refine .cons id (Token.separated_joined ?_ trivial (.singleton _))
    rintro _ hv
    obtain ⟨entry, hentry, rfl⟩ := List.mem_map.1 hv
    cases entry with
    | known k => exact .cons id (.cons id (ih k (List.mem_filterMap.2 ⟨_, hentry, rfl⟩)))
    | unknown name value => exact .cons id (.cons id (hunknown name value hentry).2.separated)
  | nullName => simp [Separated, Token.IsNumber]
  | variant _ _ _ ih => exact .cons id (.cons id (.cons id (ih.append trivial (.singleton _))))
  | _ => exact .singleton _

end Tokens

section Within

variable {α β : Type} {nesting inner depth : Nat} {a : α} {b : β}

/-- The result of reading what is nested so deep, where only so much depth is left. -/
def within (nesting depth : Nat) (a : α) : Except LoadError α :=
  if nesting ≤ depth then .ok a else .error .malformed

theorem within_zero : within 0 depth a = .ok a :=
  if_pos (Nat.zero_le _)

theorem within_zero_depth : within (1 + nesting) 0 a = .error .malformed :=
  if_neg (by omega)

theorem within_succ : within (1 + nesting) (depth + 1) a = within nesting depth a := by
  simp only [within, Nat.add_comm 1, Nat.add_le_add_iff_right]

theorem within_bind {f : α → Except LoadError β} (h : f a = within inner depth b) :
    (within nesting depth a >>= f) = within (max nesting inner) depth b := by
  by_cases hnesting : nesting ≤ depth
  · rw [within, if_pos hnesting]
    refine h.trans ?_
    simp only [within, Nat.max_le, hnesting, true_and]
  · rw [within, within, if_neg hnesting, if_neg (by omega)]
    rfl

theorem within_map {f : α → Except LoadError β} (h : f a = .ok b) :
    (within nesting depth a >>= f) = within nesting depth b := by
  have hzero : f a = within 0 depth b := h.trans within_zero.symm
  have hbind : (within nesting depth a >>= f) = within (max nesting 0) depth b := within_bind hzero
  simpa using hbind

end Within

/-- From tokens that are nested so deep, with only so much depth left, the reader gets a value,
    whatever follows them. -/
def Reads {α : Type} (read : Reader α) (depth : Nat) (tokens : List Token) (nesting : Nat)
    (a : α) : Prop :=
  ∀ rest, read (tokens ++ rest) = within nesting depth (a, rest)

section Following

variable {tokens rest : List Token} {values : List (List Token)} {isFirst : Bool}

/-- The values that are still to come, each with the comma in front of it. -/
def following (isFirst : Bool) (values : List (List Token)) : List Token :=
  if isFirst then joined values else values.flatMap (.comma :: ·)

theorem following_nil : following isFirst [] = [] := by
  cases isFirst <;> rfl

theorem following_cons : following isFirst (tokens :: values) =
    (if isFirst then [] else [.comma]) ++ (tokens ++ following false values) := by
  cases isFirst <;> simp [following, joined]

theorem nextItem_close : nextItem isFirst (.closeBracket :: rest) = .ok none := rfl

theorem nextItem_following (h : StartsValue tokens) :
    nextItem isFirst (following isFirst (tokens :: values) ++ rest) =
      .ok (some (tokens ++ (following false values ++ rest))) := by
  obtain ⟨t, tail, rfl, ht⟩ := h
  rw [following_cons, List.append_assoc, List.append_assoc]
  cases isFirst <;> cases t <;> first | rfl | exact absurd rfl ht

theorem nextKey_close : nextKey isFirst (.closeBrace :: rest) = .ok none := rfl

theorem nextKey_following {name : String} :
    nextKey isFirst (following isFirst ((.text (.ok name) :: tokens) :: values) ++ rest) =
      .ok (some (name, tokens ++ (following false values ++ rest))) := by
  rw [following_cons]
  cases isFirst <;> simp [nextKey, readKey]

end Following

section Parts

variable {depth : Nat} {rest : List Token}

/-- Items are read one after the other. -/
theorem readItems_following {item : Reader Part} {items : List Formed} {value : Formed → Part}
    (h : ∀ i ∈ items, StartsValue i.tokens ∧ Reads item depth i.tokens i.nesting (value i))
    (isFirst : Bool) {fuel : Nat} (hfuel : items.length < fuel) :
    readItems item fuel isFirst
        (following isFirst (items.map (·.tokens)) ++ .closeBracket :: rest) =
      within (deepest (items.map (·.nesting))) depth (items.map value, rest) := by
  obtain ⟨fuel, rfl⟩ : ∃ n, fuel = n + 1 := ⟨fuel - 1, by omega⟩
  induction items generalizing isFirst fuel with
  | nil =>
    rw [List.map_nil, following_nil, List.nil_append, readItems, nextItem_close]
    exact within_zero.symm
  | cons i items ih =>
    rw [List.forall_mem_cons] at h
    rw [List.map_cons, readItems, nextItem_following h.1.1]
    simp only [List.length_cons] at hfuel
    obtain ⟨fuel, rfl⟩ : ∃ n, fuel = n + 1 := ⟨fuel - 1, by omega⟩
    change (item (i.tokens ++ _) >>= _) = _
    rw [h.1.2]
    refine within_bind ?_
    change (readItems item (fuel + 1) false _ >>= _) = _
    rw [ih h.2 false fuel (by omega)]
    exact within_map rfl

/-- At the closing bracket the remaining fields get their defaults. -/
theorem readInOrder_omitted {g : Group} {read : Shape → Reader Part} {value : String → Part}
    {omitted : List Field} (h : ∀ f ∈ omitted, f.default? = some (value f.name)) (count : Nat) :
    readInOrder g read count omitted (.closeBracket :: rest) =
      .ok (omitted.map (fun f => value f.name), rest) := by
  induction omitted generalizing count with
  | nil => rfl
  | cons f omitted ih =>
    rw [List.forall_mem_cons] at h
    rw [readInOrder, nextItem_close]
    simp only [bind, Except.bind, h.1, ih h.2]
    rfl

/-- Fields in the order of declaration are read one after the other. Those at the end that are
    omitted get their defaults. -/
theorem readInOrder_following {g : Group} {read : Shape → Reader Part} {given : List Given}
    {value : String → Part} {omitted : List Field}
    (h : ∀ k ∈ given, StartsValue k.tokens ∧
      Reads (read k.field.shape) depth k.tokens k.nesting (value k.field.name))
    (homitted : ∀ f ∈ omitted, f.default? = some (value f.name)) (count : Nat) :
    readInOrder g read count (given.map (·.field) ++ omitted)
        (following (count == 0) (given.map (·.tokens)) ++ .closeBracket :: rest) =
      within (deepest (given.map (·.nesting))) depth
        ((given.map (·.field) ++ omitted).map (fun f => value f.name), rest) := by
  induction given generalizing count with
  | nil =>
    simp only [List.map_nil, following_nil, List.nil_append]
    exact (readInOrder_omitted homitted count).trans within_zero.symm
  | cons k given ih =>
    rw [List.forall_mem_cons] at h
    rw [List.map_cons, List.map_cons, List.cons_append, readInOrder, nextItem_following h.1.1]
    change (read k.field.shape (k.tokens ++ _) >>= _) = _
    rw [h.1.2]
    refine within_bind ?_
    change (readInOrder g read (count + 1) _ _ >>= _) = _
    have hnext := ih h.2 (count + 1)
    rw [show (count + 1 == 0) = false from rfl] at hnext
    rw [hnext]
    exact within_map rfl

/-- What was found under these names. -/
def found (value : String → Part) (names : List String) : List (String × Part) :=
  names.map fun name => (name, value name)

theorem lookup_found {value : String → Part} {names : List String} {name : String} :
    (found value names).lookup name = if name ∈ names then some (value name) else none := by
  induction names with
  | nil => rfl
  | cons first names ih =>
    rw [found, List.map_cons, List.lookup_cons, ← found, ih]
    by_cases hname : name = first
    · simp [hname]
    · simp [hname, beq_false_of_ne hname]

/-- Fields that were not found get their defaults. -/
theorem completed_found {value : String → Part} {names : List String} {fields : List Field}
    (h : ∀ f ∈ fields, f.name ∈ names ∨ f.default? = some (value f.name)) :
    completed (found value names) fields = .ok (fields.map fun f => value f.name) := by
  induction fields with
  | nil => rfl
  | cons f fields ih =>
    rw [List.forall_mem_cons] at h
    have hvalue : ((found value names).lookup f.name <|> f.default?) = some (value f.name) := by
      rw [lookup_found]
      obtain hname | hdefault := h.1
      · simp [hname]
      · split <;> simp [hdefault]
    rw [completed, hvalue, ih h.2]
    rfl

/-- The entries of an object are read in any order. Those of unknown fields are passed over. -/
theorem readByName_following {g : Group} {read : Shape → Reader Part} {value : String → Part}
    {entries : List Entry}
    (h : ∀ k ∈ Entry.givens entries,
      k.field ∈ g.fields ∧ Reads (read k.field.shape) depth k.tokens k.nesting (value k.field.name))
    (hunknown : ∀ name v, .unknown name v ∈ entries → name ∉ g.fields.map (·.name) ∧ IsValue v)
    {names : List String} (hnames : (names ++ (Entry.givens entries).map (·.field.name)).Nodup)
    (hcomplete : ∀ f ∈ g.fields, f.name ∈ names ++ (Entry.givens entries).map (·.field.name) ∨
      f.default? = some (value f.name))
    (isFirst : Bool) {fuel : Nat} (hfuel : entries.length < fuel) :
    readByName g read (found value names) fuel isFirst
        (following isFirst (entries.map Entry.tokens) ++ .closeBrace :: rest) =
      within (deepest ((Entry.givens entries).map (·.nesting))) depth
        (g.fields.map (fun f => value f.name), rest) := by
  obtain ⟨fuel, rfl⟩ : ∃ n, fuel = n + 1 := ⟨fuel - 1, by omega⟩
  induction entries generalizing names isFirst fuel with
  | nil =>
    rw [List.map_nil, following_nil, List.nil_append, readByName, nextKey_close]
    change (completed (found value names) g.fields >>= _) = _
    rw [completed_found (by simpa [Entry.givens] using hcomplete)]
    exact within_zero.symm
  | cons entry entries ih =>
    simp only [List.length_cons] at hfuel
    obtain ⟨fuel, rfl⟩ : ∃ n, fuel = n + 1 := ⟨fuel - 1, by omega⟩
    have hunknown' (name : String) (v : List Token) (hentry : .unknown name v ∈ entries) :=
      hunknown name v (List.mem_cons_of_mem _ hentry)
    cases entry with
    | unknown name v =>
      obtain ⟨hname, hv⟩ := hunknown name v List.mem_cons_self
      have hfind : g.fields.find? (·.name == name) = none :=
        List.find?_eq_none.2 fun f hf heq => hname (List.mem_map.2 ⟨f, hf, by simpa using heq⟩)
      have hcolon (ts : List Token) : expect .colon (.colon :: ts) = .ok ts := rfl
      rw [List.map_cons, Entry.tokens, readByName, nextKey_following]
      simp only [bind, Except.bind, hfind, List.cons_append, hcolon, hv.skipValue]
      exact ih h hunknown' hnames hcomplete false fuel (by omega)
    | known k =>
      have hgivens : Entry.givens (.known k :: entries) = k :: Entry.givens entries := rfl
      rw [hgivens] at h hnames hcomplete ⊢
      rw [List.forall_mem_cons] at h
      have hfind : g.fields.find? (·.name == k.field.name) = some k.field :=
        find?_name g.fields_nodup h.1.1
      have hmiddle : (k.field.name :: names ++ (Entry.givens entries).map (·.field.name)).Nodup :=
        List.nodup_middle.1 hnames
      have hnew : k.field.name ∉ names := fun hmem =>
        (List.nodup_cons.1 hmiddle).1 (List.mem_append_left _ hmem)
      rw [List.map_cons, Entry.tokens, readByName, nextKey_following]
      simp only [bind, Except.bind, hfind, lookup_found, if_neg hnew]
      change (read k.field.shape (k.tokens ++ _) >>= _) = _
      rw [h.1.2]
      refine within_bind ?_
      refine ih h.2 hunknown' hmiddle ?_ false fuel (by omega)
      intro f hf
      have := hcomplete f hf
      simp only [List.mem_append, List.map_cons, List.mem_cons] at this ⊢
      tauto

end Parts

section Reading

/-- The text of the number is read as the number itself. -/
def ReadsBack (x : Float) : Prop :=
  readNumber (Token.ofText (Json.realText x)) = .ok (x, [])

theorem readNumber_spelled {x : Float} {n : Json.Numeral} (hx : ReadsBack x)
    (h : n.Spelled (Json.realText x).toList) (rest : List Token) :
    readNumber (.number n :: rest) = .ok (x, rest) := by
  rw [ReadsBack, Token.ofText_of_spaced (Token.Spelled.number h).spaced (.singleton _)] at hx
  simp only [readNumber] at hx ⊢
  cases hmeaning : n.meaning? with
  | none => simp [hmeaning] at hx
  | some meaning => cases meaning <;> simp_all

/-- A default is what is written as its document. -/
theorem Field.written_default {P : Float → Prop} {g : Group} {f : Field} {part : Part} {j : Json}
    (hf : f ∈ g.fields) (hdefault : f.default? = some part)
    (hj : part.defaultDocument? = some j) : Written P f.shape part j := by
  have hnil (item : Shape) : Written P (.list item) (.list []) (.list []) :=
    @Written.list P item [] (by simp)
  cases g
  all_goals
    simp only [Group.fields, List.mem_cons, List.not_mem_nil, or_false] at hf
    rcases hf with rfl | rfl | rfl
  all_goals
    cases hdefault
  all_goals
    cases hj
    first
      | exact written_span _
      | exact written_location _
      | exact hnil _

/-- Where the document is that of the default, what was written is the default. -/
theorem Field.default?_of_written {P : Float → Prop} {g : Group} {f : Field} {part : Part}
    {j : Json} (hf : f ∈ g.fields) (h : Written P f.shape part j)
    (hj : f.defaultDocument? = some j) : f.default? = some part := by
  obtain ⟨default, hdefault, hj⟩ := Option.bind_eq_some_iff.1 hj
  rw [hdefault, h.unique (Field.written_default hf hdefault hj (P := P))]

theorem readWord_spelled {w : UInt32} {n : Json.Numeral} (h : n.Spelled (toString w).toList)
    (rest : List Token) : readWord (.number n :: rest) = .ok (w, rest) := by
  have hw : w.toNat < UInt32.size := w.toNat_lt
  have hspelled : n.Spelled (toString w.toNat).toList := h
  have hmeaning := Json.meaning?_toString hspelled (Nat.lt_trans hw (by decide))
  rw [readWord, hmeaning]
  simp [hw]

variable {shape : Shape} {part : Part} {j : Json} {nesting : Nat} {tokens : List Token}

section Length

variable {values : List (List Token)} {value : List Token}

theorem length_le_joined (h : value ∈ values) : value.length ≤ (joined values).length := by
  cases values with
  | nil => cases h
  | cons v values =>
    rw [joined, List.length_append]
    obtain rfl | h := List.mem_cons.1 h
    · exact Nat.le_add_right _ _
    · have hmem := List.mem_map_of_mem (f := (Token.comma :: ·)) h
      have := (List.sublist_flatten_of_mem hmem).length_le
      rw [List.flatMap_def]
      simp only [List.length_cons] at this
      omega

theorem count_le_joined (h : ∀ v ∈ values, 0 < v.length) :
    values.length ≤ (joined values).length := by
  have hmore (values : List (List Token)) :
      values.length ≤ (values.flatMap (Token.comma :: ·)).length := by
    induction values with
    | nil => exact Nat.le_refl _
    | cons v values ih =>
      simp only [List.length_cons, List.flatMap_cons, List.length_append]
      omega
  cases values with
  | nil => exact Nat.le_refl _
  | cons v values =>
    have := h v List.mem_cons_self
    have := hmore values
    simp only [joined, List.length_cons, List.length_append]
    omega

end Length

section Brackets

variable {values : List (List Token)} {t t' : Token} {fuel : Nat}

/-- Fuel for what stands in brackets is enough for each of the values. -/
theorem length_lt_fuel (h : (t :: (joined values ++ [t'])).length < fuel) :
    ∀ v ∈ values, v.length < fuel := by
  intro v hv
  have := length_le_joined hv
  simp only [List.length_cons, List.length_append] at h
  omega

theorem count_lt_fuel (h : (t :: (joined values ++ [t'])).length < fuel)
    (hvalues : ∀ v ∈ values, 0 < v.length) : values.length < fuel := by
  have := count_le_joined hvalues
  simp only [List.length_cons, List.length_append] at h
  omega

end Brackets

section Levels

variable {fuel depth : Nat}

theorem reads_list {item : Shape} {items : List Formed} {value : Formed → Part}
    (h : ∀ i ∈ items,
      StartsValue i.tokens ∧ Reads (read fuel depth item) depth i.tokens i.nesting (value i))
    (hfuel : items.length < fuel) :
    Reads (read fuel (depth + 1) (.list item)) (depth + 1)
      (.openBracket :: (joined (items.map (·.tokens)) ++ [.closeBracket]))
      (1 + deepest (items.map (·.nesting))) (.list (items.map value)) := by
  intro rest
  rw [within_succ, List.cons_append, List.append_assoc]
  change (readItems (read fuel depth item) fuel true
    (following true _ ++ .closeBracket :: rest) >>= _) = _
  rw [readItems_following h true hfuel]
  exact within_map rfl

theorem reads_array {g : Group} {given : List Given} {omitted : List Field} {part : Part}
    {value : String → Part} (hfields : given.map (·.field) ++ omitted = g.fields)
    (hpart : g.assemble? (g.fields.map fun f => value f.name) = some part)
    (homitted : ∀ f ∈ omitted, f.default? = some (value f.name))
    (h : ∀ k ∈ given, StartsValue k.tokens ∧
      Reads (read fuel depth k.field.shape) depth k.tokens k.nesting (value k.field.name)) :
    Reads (read fuel (depth + 1) (.group g)) (depth + 1)
      (.openBracket :: (joined (given.map (·.tokens)) ++ [.closeBracket]))
      (1 + deepest (given.map (·.nesting))) part := by
  intro rest
  rw [within_succ, List.cons_append, List.append_assoc]
  change (readInOrder g (read fuel depth) 0 g.fields
    (following (0 == 0) _ ++ .closeBracket :: rest) >>= _) = _
  rw [← hfields] at hpart ⊢
  rw [readInOrder_following h homitted]
  refine within_map ?_
  change assembled _ rest = _
  rw [hpart]
  rfl

theorem reads_object {g : Group} {entries : List Entry} {part : Part} {value : String → Part}
    (hpart : g.assemble? (g.fields.map fun f => value f.name) = some part)
    (h : ∀ k ∈ Entry.givens entries, k.field ∈ g.fields ∧
      Reads (read fuel depth k.field.shape) depth k.tokens k.nesting (value k.field.name))
    (hunknown : ∀ name v, .unknown name v ∈ entries → name ∉ g.fields.map (·.name) ∧ IsValue v)
    (hnames : ((Entry.givens entries).map (·.field.name)).Nodup)
    (hcomplete : ∀ f ∈ g.fields, f.name ∈ (Entry.givens entries).map (·.field.name) ∨
      f.default? = some (value f.name))
    (hfuel : entries.length < fuel) :
    Reads (read fuel (depth + 1) (.group g)) (depth + 1)
      (.openBrace :: (joined (entries.map Entry.tokens) ++ [.closeBrace]))
      (1 + deepest ((Entry.givens entries).map (·.nesting))) part := by
  intro rest
  rw [within_succ, List.cons_append, List.append_assoc]
  change (readByName g (read fuel depth) (found value []) fuel true
    (following true _ ++ .closeBrace :: rest) >>= _) = _
  have hnames' : ([] ++ (Entry.givens entries).map fun k : Given => k.field.name).Nodup := hnames
  rw [readByName_following h hunknown hnames' hcomplete true hfuel]
  refine within_map ?_
  change assembled _ rest = _
  rw [hpart]
  rfl

theorem Choice.named_of_mem {c : Choice} {v : Variant} (h : v ∈ c.variants) :
    c.named v.name = .ok v := by
  rw [named, find?_name c.variants_nodup h]

theorem reads_name {c : Choice} {name : String} {part : Part}
    (hvariant : ⟨name, .nothing⟩ ∈ c.variants) (hpart : c.assemble? name .nothing = some part) :
    Reads (read fuel depth (.choice c)) depth [.text (.ok name)] 0 part := by
  have hnamed : c.named name = .ok ⟨name, .nothing⟩ := Choice.named_of_mem hvariant
  intro rest
  have hread (inner : Option (Shape → Reader Part)) :
      readChoice inner c (.text (.ok name) :: rest) = .ok (part, rest) := by
    change (c.named name >>= _) = _
    rw [hnamed]
    change assembled _ rest = _
    rw [hpart]
    rfl
  cases depth with
  | zero => exact (hread none).trans within_zero.symm
  | succ depth => exact (hread (some (read fuel depth))).trans within_zero.symm

theorem reads_contents {c : Choice} {name : String} {contents : Contents} {inner part : Part}
    {nesting : Nat} {tokens : List Token} (hvariant : ⟨name, contents⟩ ∈ c.variants)
    (h : Reads (readContents (read fuel depth) contents) depth tokens nesting inner)
    (hpart : c.assemble? name inner = some part) :
    Reads (read fuel (depth + 1) (.choice c)) (depth + 1)
      (.openBrace :: .text (.ok name) :: .colon :: (tokens ++ [.closeBrace])) (1 + nesting)
      part := by
  have hnamed : c.named name = .ok ⟨name, contents⟩ := Choice.named_of_mem hvariant
  intro rest
  rw [within_succ]
  simp only [List.cons_append, List.append_assoc]
  change (c.named name >>= _) = _
  rw [hnamed]
  change (readContents (read fuel depth) contents (tokens ++ _) >>= _) = _
  rw [h]
  refine within_map ?_
  change assembled _ rest = _
  rw [hpart]
  rfl

/-- Fields that are given by name, and defaults for the others. -/
theorem reads_entries {g : Group} {fields : List (Field × Json)}
    (hfields : fields.map (·.1) = g.fields) {part : Part} {value : String → Part}
    (hpart : g.assemble? (g.fields.map fun f => value f.name) = some part)
    (hvalue : ∀ f ∈ fields, Written ReadsBack f.1.shape (value f.1.name) f.2)
    {entries : List Entry} {omitted : List (Field × Json)}
    (hgiven : fields.Perm ((Entry.givens entries).map (fun k => (k.field, k.json)) ++ omitted))
    (homitted : ∀ f ∈ omitted, f.1.defaultDocument? = some f.2)
    (hunknown : ∀ name v, .unknown name v ∈ entries → name ∉ g.fields.map (·.name) ∧ IsValue v)
    (h : ∀ k ∈ Entry.givens entries,
      Reads (read fuel depth k.field.shape) depth k.tokens k.nesting (value k.field.name))
    (hfuel : entries.length < fuel) :
    Reads (read fuel (depth + 1) (.group g)) (depth + 1)
      (.openBrace :: (joined (entries.map Entry.tokens) ++ [.closeBrace]))
      (1 + deepest ((Entry.givens entries).map (·.nesting))) part := by
  have hfield (f : Field × Json) (hf : f ∈ fields) : f.1 ∈ g.fields :=
    hfields ▸ List.mem_map_of_mem hf
  have hmem (k : Given) (hk : k ∈ Entry.givens entries) : (k.field, k.json) ∈ fields :=
    hgiven.mem_iff.2 (List.mem_append_left _ (List.mem_map_of_mem hk))
  refine reads_object hpart (fun k hk => ⟨hfield _ (hmem k hk), h k hk⟩) hunknown ?_ ?_ hfuel
  · have hnodup := (hgiven.map (·.1.name)).nodup_iff.1 (by
      simpa [← hfields, Function.comp_def] using g.fields_nodup)
    rw [List.map_append, List.map_map] at hnodup
    exact hnodup.of_append_left
  · rw [← hfields, List.forall_mem_map]
    intro f hf
    obtain hg | ho := List.mem_append.1 (hgiven.mem_iff.1 hf)
    · obtain ⟨k, hk, rfl⟩ := List.mem_map.1 hg
      exact .inl (List.mem_map_of_mem (f := fun k : Given => k.field.name) hk)
    · exact .inr (Field.default?_of_written (hfield f hf) (hvalue f hf) (homitted f ho))

end Levels

/-- Every form of a document is read as what the document was written for, if the reader allows it
    to be nested so deep. -/
theorem Form.reads (h : Form shape j nesting tokens) (hwritten : Written ReadsBack shape part j)
    {fuel : Nat} (hfuel : tokens.length < fuel) (depth : Nat) :
    Reads (read fuel depth shape) depth tokens nesting part := by
  induction h generalizing part depth with
  | @number x n h =>
    cases hwritten with
    | number hx =>
    intro rest
    have hread := readNumber_spelled hx h rest
    cases depth <;> exact (congrArg (· >>= _) hread).trans within_zero.symm
  | text s =>
    cases hwritten
    intro rest
    cases depth <;> exact within_zero.symm
  | flag b =>
    cases hwritten
    intro rest
    cases depth <;> exact within_zero.symm
  | @word w n h =>
    cases hwritten
    intro rest
    have hread := readWord_spelled h rest
    cases depth <;> exact (congrArg (· >>= _) hread).trans within_zero.symm
  | @list item items h ih =>
    obtain ⟨value, rfl, hvalue⟩ := hwritten.of_list
    have hlength := length_lt_fuel hfuel
    have hcount := count_lt_fuel hfuel
    rw [List.forall_mem_map] at hlength hcount
    rw [List.length_map] at hcount
    cases depth with
    | zero => exact fun rest => within_zero_depth.symm
    | succ depth =>
      refine reads_list (fun i hi => ⟨(h i hi).startsValue, ?_⟩)
        (hcount fun i hi => (h i hi).startsValue.length_pos)
      exact ih i hi (hvalue i hi) (hlength i hi) depth
  | @object g fields hfields entries omitted hgiven homitted hunknown h ih =>
    obtain ⟨value, hpart, hvalue⟩ := hwritten.of_group hfields
    have hlength := length_lt_fuel hfuel
    have hcount := count_lt_fuel hfuel
    rw [List.forall_mem_map] at hlength hcount
    rw [List.length_map] at hcount
    cases depth with
    | zero => exact fun rest => within_zero_depth.symm
    | succ depth =>
      refine reads_entries hfields hpart hvalue hgiven homitted hunknown (fun k hk => ?_)
        (hcount fun entry _ => by cases entry <;> exact Nat.succ_pos _)
      have hmem : (k.field, k.json) ∈ fields :=
        hgiven.mem_iff.2 (List.mem_append_left _ (List.mem_map_of_mem hk))
      obtain ⟨entry, hentry, hknown⟩ := List.mem_filterMap.1 hk
      have hle := hlength entry hentry
      cases entry with
      | unknown => cases hknown
      | known k' =>
        cases hknown
        simp only [Entry.tokens, List.length_cons] at hle
        exact ih k hk (hvalue _ hmem) (by omega) depth
  | @array g given omitted hfields homitted h ih =>
    obtain ⟨value, hpart, hvalue⟩ := hwritten.of_group (by simpa [Function.comp_def] using hfields)
    have hlength := length_lt_fuel hfuel
    rw [List.forall_mem_map] at hlength
    rw [List.forall_mem_append, List.forall_mem_map] at hvalue
    cases depth with
    | zero => exact fun rest => within_zero_depth.symm
    | succ depth =>
      refine reads_array hfields hpart ?_ fun k hk => ⟨(h k hk).startsValue,
        ih k hk (hvalue.1 k hk) (hlength k hk) depth⟩
      rw [List.forall_mem_map]
      intro f hf
      refine Field.default?_of_written (g := g) ?_ (hvalue.2 f hf) (homitted f hf)
      exact hfields ▸ List.mem_append_right _ (List.mem_map_of_mem hf)
  | name hvariant => exact reads_name hvariant hwritten.of_name
  | nullName hvariant =>
    cases depth with
    | zero =>
      intro rest
      exact (show within (1 + 0) 0 _ = _ from within_zero_depth).symm
    | succ depth =>
      have hnull : Reads (readContents (read fuel depth) .nothing) depth [.null] 0 .nothing :=
        fun rest => within_zero.symm
      exact reads_contents hvariant hnull hwritten.of_name
  | @variant c name contents shape j nesting tokens hvariant hshape h ih =>
    obtain ⟨inner, hinner, hpart⟩ := hwritten.of_variant hvariant hshape
    simp only [List.length_cons, List.length_append, List.length_nil] at hfuel
    cases depth with
    | zero => exact fun rest => within_zero_depth.symm
    | succ depth =>
      have hreads := ih hinner (by omega) depth
      have hcontents : readContents (read fuel depth) contents = read fuel depth shape := by
        cases contents <;> cases hshape <;> rfl
      exact reads_contents hvariant (hcontents ▸ hreads) hpart

end Reading

end Tree

end NetDesc
