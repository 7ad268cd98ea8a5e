import NetDesc.Proofs.Run.Keeps

namespace NetDesc

/-- What a name in the scope of a call stands for. -/
inductive Argument where
  | passed (v : Value)
  | omitted (default : CellId)

/-- The member holds the value that was passed, in a cell of its own, or it is the cell of the
    default. -/
def Argument.Stands (s : Store) : Argument → Member → Prop
  | passed v, m => m.location = v.location ∧ m.cell < s.cells.size ∧ s.cell m.cell = .ready v
  | omitted cell, m => m.cell = cell ∧ m.location = (s.cell cell).location ∧ cell < s.cells.size

namespace Argument

theorem Stands.newCell {s : Store} {arg : Argument} {m : Member} (h : arg.Stands s m)
    (c : Cell) : arg.Stands ((Access.newCell c).perform s).2 m := by
  have hlt {cell : CellId} (h : cell < s.cells.size) :
      cell < ((Access.newCell c).perform s).2.cells.size := by
    simp [Access.perform, Nat.lt_succ_of_lt h]
  have hsame {cell : CellId} (h : cell < s.cells.size) :
      ((Access.newCell c).perform s).2.cell cell = s.cell cell := by
    simp [Access.perform, Nat.ne_of_lt h]
  cases arg with
  | passed v =>
    obtain ⟨hlocation, hcell, hready⟩ := h
    exact ⟨hlocation, hlt hcell, (hsame hcell).trans hready⟩
  | omitted cell =>
    obtain ⟨hcell, hlocation, hcells⟩ := h
    exact ⟨hcell, hlocation.trans (congrArg _ (hsame hcells).symm), hlt hcells⟩

/-- What names stand for that are bound to these values. -/
def ofValues (args : List (String × Value)) : List (String × Argument) :=
  args.map fun (name, v) => (name, passed v)

theorem names_ofValues (args : List (String × Value)) :
    (ofValues args).map (·.1) = args.map (·.1) := by
  rw [ofValues, List.map_map]
  rfl

theorem mem_ofValues {args : List (String × Value)} {name : String} {v : Value} :
    (name, passed v) ∈ ofValues args ↔ (name, v) ∈ args := by
  simp [ofValues]

/-- What names stand for that are left to these defaults. -/
def ofDefaults (defaults : List (String × CellId)) : List (String × Argument) :=
  defaults.map fun (name, cell) => (name, omitted cell)

theorem names_ofDefaults (defaults : List (String × CellId)) :
    (ofDefaults defaults).map (·.1) = defaults.map (·.1) := by
  rw [ofDefaults, List.map_map]
  rfl

theorem mem_ofDefaults {defaults : List (String × CellId)} {name : String} {cell : CellId} :
    (name, omitted cell) ∈ ofDefaults defaults ↔ (name, cell) ∈ defaults := by
  simp [ofDefaults]

end Argument

namespace Store

/-- The store `t` is `s` with one more record, inside of `outer` and with these members, and
    perhaps with more cells. The scope of a call is filled like this in three rounds, none of
    which puts a second member of a name there. -/
structure Filled (s t : Store) (outer : RecordId) (found : List (String × Argument)) : Prop where
  records_size : t.records.size = s.records.size + 1
  enclosing : (t.record s.records.size).enclosing = outer :: (s.record outer).enclosing
  names : (t.record s.records.size).names = found.map (·.1)
  nodup : (found.map (·.1)).Nodup
  stands : ∀ p ∈ found, ∃ m, (t.record s.records.size).find? p.1 = some m ∧ p.2.Stands t m
  cells_size : s.cells.size ≤ t.cells.size
  cell : ∀ c < s.cells.size, t.cell c = s.cell c
  record : ∀ r < s.records.size, t.record r = s.record r
  others : { t with cells := s.cells, records := s.records } = s

namespace Filled

variable {s t : Store} {outer : RecordId} {found : List (String × Argument)}

theorem newRecord (s : Store) (outer : RecordId) :
    s.Filled ((Access.newRecord (some outer)).perform s).2 outer [] where
  records_size := by simp [Access.perform]
  enclosing := by simp [Access.perform, Access.enclosing]
  names := by simp [Access.perform, Record.names]
  nodup := List.nodup_nil
  stands p hp := absurd hp List.not_mem_nil
  cells_size := Nat.le_refl _
  cell _ _ := rfl
  record r hr := by simp [Access.perform, Nat.ne_of_lt hr]
  others := rfl

theorem newCell (h : s.Filled t outer found) (c : Cell) :
    s.Filled ((Access.newCell c).perform t).2 outer found where
  records_size := h.records_size
  enclosing := h.enclosing
  names := h.names
  nodup := h.nodup
  stands p hp := by
    obtain ⟨m, hm, hstands⟩ := h.stands p hp
    exact ⟨m, hm, hstands.newCell c⟩
  cells_size := by simpa [Access.perform] using Nat.le_succ_of_le h.cells_size
  cell id hid := by
    have hne : id ≠ t.cells.size := Nat.ne_of_lt (Nat.lt_of_lt_of_le hid h.cells_size)
    simpa [Access.perform, hne] using h.cell id hid
  record := h.record
  others := h.others

theorem find?_eq_none (h : s.Filled t outer found) {name : String}
    (hname : name ∉ found.map (·.1)) : (t.record s.records.size).find? name = none :=
  Record.find?_eq_none_of_not_mem (h.names ▸ hname)

theorem contains_iff (h : s.Filled t outer found) {name : String} :
    (t.record s.records.size).contains name ↔ name ∈ found.map (·.1) := by
  rw [Record.contains_iff_mem_names, h.names]

/-- A name that was missing is added with what it stands for, and the others go on to stand for
    what they stood for. -/
theorem addMember (h : s.Filled t outer found) {name : String} {m : Member} {arg : Argument}
    (hname : name ∉ found.map (·.1)) (harg : arg.Stands t m) :
    s.Filled ((Access.addMember s.records.size name m).perform t).2 outer
      (found ++ [(name, arg)]) := by
  have hthere : s.records.size < t.records.size := h.records_size ▸ Nat.lt_succ_self _
  have hrecord : ((Access.addMember s.records.size name m).perform t).2.record s.records.size =
      (t.record s.records.size).add name m := by
    simp [Access.perform, record_modify, hthere]
  refine {
    records_size := by simpa [Access.perform] using h.records_size
    enclosing := by rw [hrecord, Record.add_enclosing, h.enclosing]
    names := ?_
    nodup := ?_
    stands := ?_
    cells_size := h.cells_size
    cell := h.cell
    record := fun r hr => ?_
    others := h.others }
  · rw [hrecord, Record.add_of_not_mem m (h.names ▸ hname), List.map_append, ← h.names]
    simp [Record.names]
  · rw [List.map_append, List.nodup_append]
    refine ⟨h.nodup, by simp, fun n hn k hk => ?_⟩
    rw [List.map_singleton, List.mem_singleton] at hk
    subst hk
    exact fun heq => hname (heq ▸ hn)
  · intro p hp
    rw [hrecord, Record.find?_add]
    obtain hp | hp := List.mem_append.1 hp
    · obtain ⟨k, hk, hstands⟩ := h.stands p hp
      have hne : name ≠ p.1 := fun heq => hname (heq ▸ List.mem_map_of_mem hp)
      exact ⟨k, by rwa [if_neg hne], hstands⟩
    · obtain rfl := List.mem_singleton.1 hp
      exact ⟨m, if_pos rfl, harg⟩
  · rw [← h.record r hr, Access.perform, record_modify, if_neg]
    exact fun heq => absurd heq.1 (Nat.ne_of_gt hr)

/-- A value that is added gets a cell of its own. -/
theorem addValue (h : s.Filled t outer found) {name : String} (hname : name ∉ found.map (·.1))
    (v : Value) :
    s.Filled ((Access.addMember s.records.size name { location := v.location, cell := t.cells.size }
      ).perform ((Access.newCell (.ready v)).perform t).2).2 outer
        (found ++ [(name, .passed v)]) := by
  refine (h.newCell (.ready v)).addMember hname ⟨rfl, ?_, ?_⟩
  · simp [Access.perform]
  · simp [Access.perform]

/-- What has been put into the record is found there. -/
theorem find?_of_mem (h : s.Filled t outer found) {name : String} {arg : Argument}
    (hmem : (name, arg) ∈ found) :
    ∃ m, t.find? s.records.size name = some m ∧ arg.Stands t m := by
  obtain ⟨m, hm, hstands⟩ := h.stands _ hmem
  exact ⟨m, by rw [Store.find?, List.findSome?_cons, hm], hstands⟩

/-- A record that was there before finds what it found before. -/
theorem find?_old (h : s.Filled t outer found) (houter : outer < s.records.size)
    (hs : (s.record outer).Valid s) (name : String) : t.find? outer name = s.find? outer name := by
  have hfind (u : Store) : u.find? outer name =
      ((outer :: (u.record outer).enclosing).map u.record).findSome? (·.find? name) := by
    rw [List.findSome?_map]
    rfl
  rw [hfind, hfind, h.record outer houter]
  refine congrArg _ (List.map_congr_left fun id hid => h.record id ?_)
  obtain rfl | hid := List.mem_cons.1 hid
  · exact houter
  · exact hs.enclosing id hid

/-- Whatever has not been put into the record is left to the record around it. -/
theorem find?_of_not_mem (h : s.Filled t outer found) (houter : outer < s.records.size)
    {name : String} (hname : name ∉ found.map (·.1)) :
    t.find? s.records.size name = t.find? outer name := by
  rw [Store.find?, List.findSome?_cons, h.find?_eq_none hname, h.enclosing, Store.find?,
    h.record outer houter]

end Filled

end Store

namespace Function

/-- The defaults whose names are not among these. -/
def defaultsBut (names : List String) (defaults : List (String × CellId)) :
    List (String × CellId) :=
  defaults.filter fun p => p.1 ∉ names

theorem mem_defaultsBut {names : List String} {defaults : List (String × CellId)}
    {p : String × CellId} : p ∈ defaultsBut names defaults ↔ p ∈ defaults ∧ p.1 ∉ names := by
  simp [defaultsBut]

theorem defaultsBut_congr {names names' : List String} {defaults : List (String × CellId)}
    (h : ∀ p ∈ defaults, p.1 ∈ names ↔ p.1 ∈ names') :
    defaultsBut names defaults = defaultsBut names' defaults :=
  List.filter_congr fun p hp => decide_eq_decide.2 (not_congr (h p hp))

/-- A name was passed by position already. -/
def passedTwice (name : String) (location : Location) : EvalError :=
  .invalidArgument s!"argument {name} is passed both by position and by name" location

variable (carryOut : (c : Call) → Store → Outcome c.Reply) {s t : Store} {outer : RecordId}
  {found : List (String × Argument)}

/-- The first round. -/
theorem bindPositional_fills (h : s.Filled t outer found) {args : List (String × Value)}
    (hargs : (found.map (·.1) ++ args.map (·.1)).Nodup) :
    ∃ u, (bindPositional s.records.size args).run carryOut t = .value () u ∧
      s.Filled u outer (found ++ Argument.ofValues args) := by
  induction args generalizing t found with
  | nil => exact ⟨t, rfl, by simpa [Argument.ofValues] using h⟩
  | cons arg args ih =>
    obtain ⟨name, v⟩ := arg
    have hname : name ∉ found.map (·.1) := fun hmem =>
      (List.nodup_append.1 hargs).2.2 name hmem name List.mem_cons_self rfl
    obtain ⟨u, hrun, hfilled⟩ := ih (h.addValue hname v) (by simpa using hargs)
    exact ⟨u, hrun, by simpa [Argument.ofValues] using hfilled⟩

theorem run_bindDefaults_cons (scope : RecordId) (named : List (String × Value)) (name : String)
    (cell : CellId) (defaults : List (String × CellId)) (t : Store) :
    (bindDefaults scope named ((name, cell) :: defaults)).run carryOut t =
      (bindDefaults scope named defaults).run carryOut
        (if named.any (·.1 == name) || (t.record scope).contains name then t
          else (Access.perform (.addMember scope name { location := (t.cell cell).location, cell })
            t).2) := by
  change Program.run carryOut (ite _ _ _) t = _
  split <;> rfl

/-- The second round: a default is added unless its name has been given a meaning, or will be. It
    stays in the cell that the function has for it, where nobody computes it on behalf of the
    call. -/
theorem bindDefaults_fills (h : s.Filled t outer found) (named : List (String × Value))
    {defaults : List (String × CellId)} (hdefaults : (defaults.map (·.1)).Nodup)
    (hcells : ∀ p ∈ defaults, p.2 < s.cells.size) :
    ∃ u, (bindDefaults s.records.size named defaults).run carryOut t = .value () u ∧
      s.Filled u outer (found ++
        Argument.ofDefaults (defaultsBut (found.map (·.1) ++ named.map (·.1)) defaults)) := by
  induction defaults generalizing t found with
  | nil => exact ⟨t, rfl, by simpa [Argument.ofDefaults, defaultsBut] using h⟩
  | cons p defaults ih =>
    obtain ⟨name, cell⟩ := p
    rw [List.map_cons, List.nodup_cons] at hdefaults
    rw [List.forall_mem_cons] at hcells
    have hskip : (named.any (·.1 == name) || (t.record s.records.size).contains name) = true ↔
        name ∈ found.map (·.1) ++ named.map (·.1) := by
      rw [Bool.or_eq_true, h.contains_iff, List.mem_append, or_comm]
      simp
    rw [run_bindDefaults_cons]
    by_cases hmem : name ∈ found.map (·.1) ++ named.map (·.1)
    · obtain ⟨u, hrun, hfilled⟩ := ih h hdefaults.2 hcells.2
      refine ⟨u, by rw [if_pos (hskip.2 hmem), hrun], ?_⟩
      rwa [defaultsBut, List.filter_cons_of_neg (by simpa only [decide_eq_true_eq, not_not])]
    · have hname : name ∉ found.map (·.1) := fun hfound => hmem (List.mem_append_left _ hfound)
      have hcell : cell < t.cells.size := Nat.lt_of_lt_of_le hcells.1 h.cells_size
      have hstands : (Argument.omitted cell).Stands t
          { location := (t.cell cell).location, cell } := ⟨rfl, rfl, hcell⟩
      obtain ⟨u, hrun, hfilled⟩ :=
        ih (h.addMember hname hstands) hdefaults.2 hcells.2
      refine ⟨u, by rw [if_neg (mt hskip.1 hmem), hrun], ?_⟩
      rw [defaultsBut, List.filter_cons_of_pos (by simpa only [decide_eq_true_eq])]
      have hsame : defaultsBut
          ((found ++ [(name, Argument.omitted cell)]).map (·.1) ++ named.map (·.1)) defaults =
            defaultsBut (found.map (·.1) ++ named.map (·.1)) defaults := by
        refine defaultsBut_congr fun p hp => ?_
        have hne : p.1 ≠ name := fun heq => hdefaults.1 (heq ▸ List.mem_map.2 ⟨p, hp, rfl⟩)
        simp [hne]
      rw [hsame] at hfilled
      simpa [Argument.ofDefaults, defaultsBut] using hfilled

theorem run_bindNamed_cons (scope : RecordId) (location : Location) (name : String) (v : Value)
    (args : List (String × Value)) (t : Store) :
    (bindNamed scope location ((name, v) :: args)).run carryOut t =
      if (t.record scope).contains name then .error (passedTwice name location) t
      else (bindNamed scope location args).run carryOut
        ((Access.addMember scope name { location := v.location, cell := t.cells.size }).perform
          ((Access.newCell (.ready v)).perform t).2).2 := by
  change Program.run carryOut (ite _ _ _) t = _
  split <;> rfl

/-- The third round, where no name has been given a meaning before. -/
theorem bindNamed_fills (h : s.Filled t outer found) (location : Location)
    {args : List (String × Value)} (hargs : (found.map (·.1) ++ args.map (·.1)).Nodup) :
    ∃ u, (bindNamed s.records.size location args).run carryOut t = .value () u ∧
      s.Filled u outer (found ++ Argument.ofValues args) := by
  induction args generalizing t found with
  | nil => exact ⟨t, rfl, by simpa [Argument.ofValues] using h⟩
  | cons arg args ih =>
    obtain ⟨name, v⟩ := arg
    have hname : name ∉ found.map (·.1) := fun hmem =>
      (List.nodup_append.1 hargs).2.2 name hmem name List.mem_cons_self rfl
    obtain ⟨u, hrun, hfilled⟩ := ih (h.addValue hname v) (by simpa using hargs)
    refine ⟨u, ?_, by simpa [Argument.ofValues] using hfilled⟩
    rw [run_bindNamed_cons, if_neg (mt h.contains_iff.1 hname), hrun]

/-- The third round, where some name has a meaning already. -/
theorem bindNamed_fails (h : s.Filled t outer found) (location : Location)
    {args : List (String × Value)} (hnodup : (args.map (·.1)).Nodup)
    (hargs : ∃ name ∈ args.map (·.1), name ∈ found.map (·.1)) :
    ∃ name ∈ args.map (·.1), name ∈ found.map (·.1) ∧ ∃ u,
      (bindNamed s.records.size location args).run carryOut t =
        .error (passedTwice name location) u := by
  induction args generalizing t found with
  | nil => exact absurd hargs (by simp)
  | cons arg args ih =>
    obtain ⟨name, v⟩ := arg
    rw [List.map_cons, List.nodup_cons] at hnodup
    rw [run_bindNamed_cons]
    by_cases hname : name ∈ found.map (·.1)
    · exact ⟨name, List.mem_cons_self, hname, t, if_pos (h.contains_iff.2 hname)⟩
    · obtain ⟨other, hother, hfound⟩ := hargs
      have hrest : other ∈ args.map (·.1) :=
        (List.mem_cons.1 hother).resolve_left fun heq : other = name => hname (heq ▸ hfound)
      obtain ⟨twice, htwice, hfound', u, hrun⟩ := ih (h.addValue hname v) hnodup.2
        ⟨other, hrest, by rw [List.map_append]; exact List.mem_append_left _ hfound⟩
      have hne : twice ≠ name := fun heq => hnodup.1 (heq ▸ htwice)
      refine ⟨twice, List.mem_cons_of_mem _ htwice, ?_, u, ?_⟩
      · simpa [hne] using hfound'
      · rw [if_neg (mt h.contains_iff.1 hname), hrun]

end Function

end NetDesc
