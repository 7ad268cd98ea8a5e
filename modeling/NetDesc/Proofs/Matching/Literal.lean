import NetDesc.Evaluator
import NetDesc.Proofs.Matching.Program
import NetDesc.Proofs.Recurrence.Design

namespace NetDesc

/-- The cell in which a member of a literal at `path` is suspended. -/
def Binding.suspended (b : Binding) (record : RecordId) (path : String) : Cell :=
  let inside := joinPath path b.name.name
  .suspended (.evaluate b.value record inside) b.value.location inside

namespace Store

/-- The members of a literal in consecutive cells. -/
def literalMembers (first : CellId) (bs : List Binding) : List (String × Member) :=
  bs.mapIdx fun i b => (b.name.name, { location := b.name.location, cell := first + i })

theorem literalMembers_names (first : CellId) (bs : List Binding) :
    (literalMembers first bs).map (·.1) = bs.map (·.name.name) := by
  refine List.ext_getElem? fun i => ?_
  simp [literalMembers, Option.map_map, Function.comp_def]

/-- The store in which a record has just been given the members of a literal. -/
def fill (s : Store) (record : RecordId) (path : String) (bs : List Binding) : Store :=
  { s with
    cells := s.cells ++ (bs.map (·.suspended record path)).toArray
    records := s.records.modify record fun r =>
      { r with members := (literalMembers s.cells.size bs).toArray } }

/-- The store in which a literal at `path` has been laid out in a new record inside of `outer`. -/
def layOut (s : Store) (outer : RecordId) (path : String) (bs : List Binding) : Store :=
  (s.push .record { enclosing := outer :: (s.record outer).enclosing }).fill s.records.size path bs

variable {s : Store} {record : RecordId} {path : String} {bs : List Binding}

theorem fill_nil (h : (s.record record).members = #[]) : s.fill record path [] = s := by
  have hrecords : s.records.modify record (fun r => { r with members := #[] }) = s.records := by
    refine Array.ext (by simp) fun i hi hi' => ?_
    rw [Array.getElem_modify]
    by_cases heq : record = i
    · have hget : s.record record = s.records[i] := by simp [Store.record, heq, hi']
      rw [hget] at h
      simp [heq, ← h]
    · simp [heq]
  simp [fill, literalMembers, hrecords]

theorem fill_concat (b : Binding) (hnew : b.name.name ∉ bs.map (·.name.name)) :
    { s.fill record path bs with
      cells := (s.fill record path bs).cells.push (b.suspended record path)
      records := (s.fill record path bs).records.modify record (·.add b.name.name
        { location := b.name.location, cell := (s.fill record path bs).cells.size }) } =
      s.fill record path (bs ++ [b]) := by
  have hrecords : (s.records.modify record fun r =>
      { r with members := (literalMembers s.cells.size bs).toArray }).modify record
        (·.add b.name.name
          { location := b.name.location, cell := s.cells.size + bs.length }) =
      s.records.modify record fun r =>
        { r with members := (literalMembers s.cells.size (bs ++ [b])).toArray } := by
    refine Array.ext (by simp) fun i hi hi' => ?_
    simp only [Array.getElem_modify]
    split
    · rw [Record.add_of_not_mem]
      · simp [literalMembers, List.mapIdx_concat]
      · simpa [Record.names, literalMembers_names] using hnew
    · rfl
  simp [fill, hrecords]

/-- The names that have been given to a record. -/
theorem fill_names (h : record < s.records.size) :
    ((s.fill record path bs).record record).names = bs.map (·.name.name) := by
  have hrecord := record_modify s (fun r =>
    { r with members := (literalMembers s.cells.size bs).toArray }) record record
  rw [if_pos ⟨rfl, h⟩] at hrecord
  have hfill : (s.fill record path bs).record record = _ := hrecord
  rw [hfill]
  exact literalMembers_names s.cells.size bs

section Members

variable {r : Record} {first : CellId}
  (hr : r.members = (literalMembers first bs).toArray)

include hr

theorem find?_literal (hnames : (bs.map (·.name.name)).Nodup) {i : Nat} {b : Binding}
    (hb : bs[i]? = some b) :
    r.find? b.name.name = some { location := b.name.location, cell := first + i } := by
  obtain ⟨hi, hget⟩ := List.getElem?_eq_some_iff.1 hb
  have hfound : (literalMembers first bs).find? (·.1 == b.name.name) =
      some (b.name.name, { location := b.name.location, cell := first + i }) := by
    rw [List.find?_eq_some_iff_getElem]
    refine ⟨by simp, i, by simpa [literalMembers] using hi, ?_, fun j hj => ?_⟩
    · simp [literalMembers, hget]
    · have hne := (List.pairwise_iff_getElem.1 hnames) j i (by simp; omega) (by simpa) hj
      simpa [literalMembers, hget] using hne
  rw [Record.find?, hr, List.find?_toArray, hfound]
  rfl

theorem find?_literal_none {name : String} (hname : name ∉ bs.map (·.name.name)) :
    r.find? name = none := by
  refine Record.find?_eq_none_of_not_mem ?_
  rwa [Record.names, hr, List.toList_toArray, literalMembers_names]

end Members

end Store

namespace Evaluator

variable {carryOut : (c : Call) → Store → Outcome c.Reply} {s : Store} {record : RecordId}
  {path : String}

/-- Members with distinct names are added one after another. -/
theorem run_addMembers (hrecord : record < s.records.size) (bs : List Binding)
    {rest : List Binding} (hnames : ((bs ++ rest).map (·.name.name)).Nodup) :
    (addMembers record path rest).run carryOut (s.fill record path bs) =
      .value () (s.fill record path (bs ++ rest)) := by
  induction rest generalizing bs with
  | nil =>
    rw [List.append_nil]
    rfl
  | cons b rest ih =>
    have hmissing : b.name.name ∉ bs.map (·.name.name) := by
      simp only [List.map_append, List.map_cons] at hnames
      intro hmem
      exact (List.disjoint_of_nodup_append hnames) hmem (List.mem_cons_self ..)
    have hnew : ¬((s.fill record path bs).record record).contains b.name.name := by
      rwa [Record.contains_iff_mem_names, Store.fill_names hrecord]
    have happend : bs ++ b :: rest = (bs ++ [b]) ++ rest := by simp
    rw [happend] at hnames ⊢
    rw [addMembers, ← ih (bs ++ [b]) hnames, ← Store.fill_concat b hmissing]
    change Program.run carryOut (if ((s.fill record path bs).record record).contains b.name.name
      then _ else _) _ = _
    rw [if_neg hnew]
    rfl

/-- A literal with distinct names is laid out. -/
theorem run_record (ev : Evaluator) {bs : List Binding} (hnames : (bs.map (·.name.name)).Nodup)
    (location : Location) (scope : RecordId) :
    (ev.evaluateKind (.record bs) location scope path).run carryOut s =
      .value (.record s.records.size location path) (s.layOut scope path bs) := by
  let opened := s.push .record { enclosing := scope :: (s.record scope).enclosing }
  have hmembers : (opened.record s.records.size).members = #[] := by
    simp [opened, Store.push]
  have hsize : s.records.size < opened.records.size := by
    simp [opened, Store.push]
  have hrun : (addMembers s.records.size path bs).run carryOut opened =
      .value () (opened.fill s.records.size path bs) := by
    have hadded := @run_addMembers carryOut opened _ path hsize [] bs hnames
    rwa [Store.fill_nil hmembers] at hadded
  change ((addMembers s.records.size path bs) >>= fun _ =>
    pure (Value.record s.records.size location path)).run carryOut opened = _
  rw [Program.run_bind, hrun]
  rfl

end Evaluator

/-- Bindings at these positions of two lists have the same name. -/
def Binding.Namesakes (bs bs' : List Binding) (i j : Nat) : Prop :=
  ∃ b b', bs[i]? = some b ∧ bs'[j]? = some b' ∧ b.name.name = b'.name.name

section Rearranged

variable {expr : Expr → Expr → Prop} {bs bs' bs'' : List Binding}
  (hparts : List.Forall₂ (Binding.Varies expr Eq) bs bs') (horder : bs'.Perm bs'')
  (hnames : (bs.map (·.name.name)).Nodup)

include hparts

theorem Binding.names_eq : bs.map (·.name.name) = bs'.map (·.name.name) := by
  have h : List.Forall₂ Eq (bs.map (·.name.name)) (bs'.map (·.name.name)) := by
    refine List.forall₂_map_left_iff.2 (List.forall₂_map_right_iff.2 ?_)
    exact hparts.imp fun _ _ hb => hb.name.name
  rwa [List.forall₂_eq_eq_eq] at h

include horder

theorem Binding.names_perm : (bs.map (·.name.name)).Perm (bs''.map (·.name.name)) :=
  names_eq hparts ▸ horder.map (·.name.name)

include hnames

/-- Bindings of the same name are related. -/
theorem Binding.varies_of_name_eq {b b'' : Binding} (hb : b ∈ bs) (hb'' : b'' ∈ bs'')
    (hname : b.name.name = b''.name.name) : b.Varies expr Eq b'' := by
  obtain ⟨b', hb', hvaries⟩ := exists_right_of_forall₂ hparts hb
  have hnames' : (bs'.map (·.name.name)).Nodup := names_eq hparts ▸ hnames
  have heq : b' = b'' := List.inj_on_of_nodup_map hnames' hb' (horder.mem_iff.2 hb'')
    (hvaries.name.name.symm.trans hname)
  exact heq ▸ hvaries

/-- Bindings of the same name have their places one to one. -/
theorem Binding.namesakes_paired {β : Type} {R : β → β → Prop} {f g : Binding → β}
    (hfg : ∀ b b'' : Binding, b.Varies expr Eq b'' → R (f b) (g b'')) :
    Paired (Namesakes bs bs'') R (bs.map f).toArray (bs''.map g).toArray where
  entry := by
    rintro i j ⟨b, b'', hb, hb'', hname⟩
    have hvaries := varies_of_name_eq hparts horder hnames (List.mem_of_getElem? hb)
      (List.mem_of_getElem? hb'') hname
    exact ⟨f b, g b'', by simp [hb], by simp [hb''], hfg b b'' hvaries⟩
  unique := by
    rintro i j k l ⟨b, b'', hb, hb'', hname⟩ ⟨d, d'', hd, hd'', hname'⟩
    have hnames'' := (names_perm hparts horder).nodup_iff.1 hnames
    have hi : i < (bs.map (·.name.name)).length := by
      simpa using (List.getElem?_eq_some_iff.1 hb).1
    have hj : j < (bs''.map (·.name.name)).length := by
      simpa using (List.getElem?_eq_some_iff.1 hb'').1
    rw [← List.getElem?_inj hi hnames, ← List.getElem?_inj hj hnames'']
    simp [hb, hb'', hd, hd'', hname, hname']

/-- A name stands for members in cells that are among those that correspond, or for none. -/
theorem Binding.literal_find?_rel {m : Matching} {first first' : CellId}
    (hcells : ∀ {i j}, Namesakes bs bs'' i j → m .cell (first + i) (first' + j)) {r k : Record}
    (hr : r.members = (Store.literalMembers first bs).toArray)
    (hk : k.members = (Store.literalMembers first' bs'').toArray) (name : String) :
    Option.Rel (Member.Corresponds m) (r.find? name) (k.find? name) := by
  have hperm := names_perm hparts horder
  by_cases hname : name ∈ bs.map (·.name.name)
  · obtain ⟨b, hb, hbname⟩ := List.mem_map.1 hname
    obtain ⟨b'', hb'', hbname''⟩ := List.mem_map.1 (hperm.mem_iff.1 hname)
    have hsame : b.name.name = b''.name.name := hbname.trans hbname''.symm
    obtain ⟨i, hi⟩ := List.mem_iff_getElem?.1 hb
    obtain ⟨j, hj⟩ := List.mem_iff_getElem?.1 hb''
    have hvaries := varies_of_name_eq hparts horder hnames hb hb'' hsame
    have hleft := Store.find?_literal hr hnames hi
    have hright := Store.find?_literal hk (hperm.nodup_iff.1 hnames) hj
    rw [hbname] at hleft
    rw [hbname''] at hright
    rw [hleft, hright]
    exact .some ⟨hvaries.name.location, hcells ⟨b, b'', hi, hj, hsame⟩⟩
  · rw [Store.find?_literal_none hr hname,
      Store.find?_literal_none hk (mt hperm.mem_iff.2 hname)]
    exact .none

end Rearranged

/-- Literals that differ in the order of their members are laid out in stores that correspond. -/
theorem Store.Corresponds.fill {K : Comparison} {m : Matching} {s t : Store}
    (h : s.Corresponds K m t) (hfree : ¬K.ordered) {record record' : RecordId}
    (hrecord : m .record record record') (path : String) {bs bs' bs'' : List Binding}
    (hparts : List.Forall₂ (Binding.Varies K.expr Eq) bs bs') (horder : bs'.Perm bs'')
    (hnames : (bs.map (·.name.name)).Nodup) :
    ∃ n, m ≤ n ∧ (s.fill record path bs).Corresponds K n (t.fill record' path bs'') := by
  let n := m.extend .cell fun i j => ∃ k l, i = s.cells.size + k ∧ j = t.cells.size + l ∧
    Binding.Namesakes bs bs'' k l
  have hmn : m ≤ n := m.le_extend .cell _
  have hnew {k l : Nat} (hkl : Binding.Namesakes bs bs'' k l) :
      n .cell (s.cells.size + k) (t.cells.size + l) :=
    Matching.extend_of_new ⟨k, l, rfl, rfl, hkl⟩
  have hold (T : Table) := (h.tables T).imp fun _ _ hxy => Table.Entry.Corresponds.mono hmn hxy
  have hrest {T : Table} (hT : T ≠ .cell) : n T = m T := Matching.extend_of_ne hT
  refine ⟨n, hmn, fun T => ?_, h.printed⟩
  cases T with
  | cell =>
    have hcells : Paired (Binding.Namesakes bs bs'') (Cell.Corresponds K n)
        (bs.map (·.suspended record path)).toArray
        (bs''.map (·.suspended record' path)).toArray := by
      refine Binding.namesakes_paired hparts horder hnames fun b b'' hb => ?_
      unfold Binding.suspended
      rw [hb.name.name, K.expr_location hb.value]
      exact .suspended (.evaluate hb.value (hmn _ _ _ hrecord) _) _ _
    have happend := (hold .cell).append hcells
    refine ⟨fun hij => happend.entry ?_, fun hij hkl => happend.unique ?_ ?_⟩
    · exact Matching.extend_self.1 hij
    · exact Matching.extend_self.1 hij
    · exact Matching.extend_self.1 hkl
  | record =>
    rw [hrest (by decide)]
    let f (r : Record) := { r with members := (literalMembers s.cells.size bs).toArray }
    let g (k : Record) := { k with members := (literalMembers t.cells.size bs'').toArray }
    refine (hold .record).modify hrecord (f := f) (g := g) fun r k hrk => ?_
    have hrk : Record.Corresponds K n r k := hrk
    exact {
      found := Binding.literal_find?_rel hparts horder hnames hnew rfl rfl
      members := fun hordered => absurd hordered hfree
      enclosing := hrk.enclosing }
  | node =>
    rw [hrest (by decide)]
    exact hold .node
  | network =>
    rw [hrest (by decide)]
    exact hold .network
  | action =>
    rw [hrest (by decide)]
    exact hold .action

/-- Literals that differ in the order of their members give records that correspond. The members
    are in other cells, but each name stands for a cell with the same computation. -/
theorem Evaluator.rearranged_corresponds {K : Comparison} {m : Matching} (hfree : ¬K.ordered)
    (ev : Evaluator) {bs bs' bs'' : List Binding}
    (hparts : List.Forall₂ (Binding.Varies K.expr Eq) bs bs') (horder : bs'.Perm bs'')
    (hnames : (bs.map (·.name.name)).Nodup) (location : Location) {scope scope' : RecordId}
    (hscope : m .record scope scope') (path : String) :
    (ev.evaluateKind (.record bs) location scope path).CorrespondsValue K m
      (ev.evaluateKind (.record bs'') location scope' path) := by
  intro C s t hst
  have hnames'' := (Binding.names_perm hparts horder).nodup_iff.1 hnames
  rw [run_record ev hnames, run_record ev hnames'']
  have hopened := hst.push (T := .record)
    (x := { enclosing := scope :: (s.record scope).enclosing })
    (y := { enclosing := scope' :: (t.record scope').enclosing })
    ⟨fun _ => .none, fun _ => .nil, .cons hscope (hst.record hscope).enclosing⟩
  have hnew := m.next_new .record s t
  obtain ⟨n, hmn, hfilled⟩ := hopened.fill hfree hnew path hparts horder hnames
  exact .value (le_trans (m.le_next .record s t) hmn) hfilled
    ⟨.record (hmn _ _ _ hnew), rfl, rfl⟩

end NetDesc
