import Statute.Proofs.Registry.Building
import Statute.Proofs.Value.Repertoire

/-!
# What a check visits

Placing a body gives its expressions their file and its exclusive blocks their locks, and changes
nothing else about them. So the expressions of a registry are those that its source declares, each
in the file of the program: the expressions of the main body, of the procedures, and of the methods
and constructors of the classes, of several methods of one name in a class only the last.

A class also carries the levels of its ancestors. They are the own levels of other classes, so their
expressions are visited there.
-/

namespace Statute

/-! ### Placing statements -/

mutual

theorem Statement.expressions_mapExpressions (f : Expression → Expression) :
    ∀ s : Statement, (s.mapExpressions f).expressions = s.expressions.map f
  | .declare .. | .assign .. | .raise _ | .print _ | .returnWith none | .returnWith (some _)
  | .breakOut | .continueOn | .perform _ => by
      simp [Statement.mapExpressions, Statement.expressions]
  | .choose branches none => by
      simp [Statement.mapExpressions, Statement.expressions,
        Branch.listExpressions_mapList f branches]
  | .choose branches (some body) => by
      simp [Statement.mapExpressions, Statement.expressions,
        Branch.listExpressions_mapList f branches, Body.expressions_mapExpressions f body]
  | .repeatFor _ _ _ body | .repeatWhile _ body | .exclusive _ body => by
      simp [Statement.mapExpressions, Statement.expressions, Body.expressions_mapExpressions f body]
  | .attempt body handlers => by
      simp [Statement.mapExpressions, Statement.expressions, Body.expressions_mapExpressions f body,
        Handler.listExpressions_mapList f handlers]

theorem Body.expressions_mapExpressions (f : Expression → Expression) :
    ∀ b : List Statement, Body.expressions (Body.mapExpressions f b) = (Body.expressions b).map f
  | [] => by simp [Body.mapExpressions]
  | s :: rest => by
      simp [Body.mapExpressions, Body.expressions, Statement.expressions_mapExpressions f s,
        Body.expressions_mapExpressions f rest]

theorem Branch.listExpressions_mapList (f : Expression → Expression) :
    ∀ bs : List Branch,
      Branch.listExpressions (Branch.mapList f bs) = (Branch.listExpressions bs).map f
  | [] => by simp [Branch.mapList, Branch.listExpressions]
  | .mk test body :: rest => by
      simp [Branch.mapList, Branch.listExpressions, Body.expressions_mapExpressions f body,
        Branch.listExpressions_mapList f rest]

theorem Handler.listExpressions_mapList (f : Expression → Expression) :
    ∀ hs : List Handler,
      Handler.listExpressions (Handler.mapList f hs) = (Handler.listExpressions hs).map f
  | [] => by simp [Handler.mapList, Handler.listExpressions]
  | .mk cls name body :: rest => by
      simp [Handler.mapList, Handler.listExpressions, Body.expressions_mapExpressions f body,
        Handler.listExpressions_mapList f rest]

end

mutual

theorem Statement.expressions_label : ∀ (n : Nat) (s : Statement),
    (s.label n).1.expressions = s.expressions
  | _, .declare .. | _, .assign .. | _, .raise _ | _, .print _ | _, .returnWith _
  | _, .breakOut | _, .continueOn | _, .perform _ => by simp [Statement.label]
  | n, .choose branches none => by
      simp [Statement.label, Statement.expressions, Branch.listExpressions_labelList n branches]
  | n, .choose branches (some body) => by
      simp [Statement.label, Statement.expressions, Branch.listExpressions_labelList n branches,
        Body.expressions_label _ body]
  | n, .repeatFor _ _ _ body | n, .repeatWhile _ body | n, .exclusive _ body => by
      simp [Statement.label, Statement.expressions, Body.expressions_label _ body]
  | n, .attempt body handlers => by
      simp [Statement.label, Statement.expressions, Body.expressions_label n body,
        Handler.listExpressions_labelList _ handlers]

theorem Body.expressions_label : ∀ (n : Nat) (b : List Statement),
    Body.expressions (Body.label n b).1 = Body.expressions b
  | _, [] => by simp [Body.label]
  | n, s :: rest => by
      simp [Body.label, Body.expressions, Statement.expressions_label n s,
        Body.expressions_label _ rest]

theorem Branch.listExpressions_labelList : ∀ (n : Nat) (bs : List Branch),
    Branch.listExpressions (Branch.labelList n bs).1 = Branch.listExpressions bs
  | _, [] => by simp [Branch.labelList]
  | n, .mk test body :: rest => by
      simp [Branch.labelList, Branch.listExpressions, Body.expressions_label n body,
        Branch.listExpressions_labelList _ rest]

theorem Handler.listExpressions_labelList : ∀ (n : Nat) (hs : List Handler),
    Handler.listExpressions (Handler.labelList n hs).1 = Handler.listExpressions hs
  | _, [] => by simp [Handler.labelList]
  | n, .mk cls name body :: rest => by
      simp [Handler.labelList, Handler.listExpressions, Body.expressions_label n body,
        Handler.listExpressions_labelList _ rest]

end

/-! ### What a source declares -/

/-- The expressions of a declared procedure: the defaults of its parameters, then its body. -/
def ProcedureDecl.expressions (p : ProcedureDecl) : List Expression :=
  p.params.filterMap (·.default) ++ Body.expressions p.body

/-- The declarations that no later one of the same name follows. -/
def ProcedureDecl.lasting : List ProcedureDecl → List ProcedureDecl
  | [] => []
  | p :: rest => if rest.any (fun q => q.name = p.name) then lasting rest else p :: lasting rest

/-- The expressions of a declared class: those of its methods, the last one of each name, and of its
constructor. -/
def ClassDecl.expressions (c : ClassDecl) : List Expression :=
  (ProcedureDecl.lasting c.methods).flatMap ProcedureDecl.expressions ++
    (c.ctor.map ProcedureDecl.expressions).getD []

/-- The expressions of a source that become part of its program. -/
def Source.expressions (s : Source) : List Expression :=
  Body.expressions s.main ++ s.procedures.flatMap ProcedureDecl.expressions ++
    s.classes.flatMap ClassDecl.expressions

/-- A declared procedure in a file, under its full name and with locks from `n` on. -/
def ProcedureDecl.placed (file name : String) (n : Nat) (p : ProcedureDecl) : Procedure :=
  ⟨name, p.params.map fun q => Param.mk q.name (q.default.map (Expression.inFile file)),
    (Body.label n (Body.mapExpressions (Expression.inFile file) p.body)).1⟩

theorem ProcedureDecl.expressions_placed (file name : String) (n : Nat) (p : ProcedureDecl) :
    (p.placed file name n).expressions = p.expressions.map (Expression.inFile file) := by
  have hdefaults : ∀ params : List ParamDecl,
      (params.map fun q => Param.mk q.name (q.default.map (Expression.inFile file))).filterMap
        (·.default) = (params.filterMap (·.default)).map (Expression.inFile file) := by
    intro params
    induction params with
    | nil => rfl
    | cons q params ih => cases h : q.default <;> simp [h, ih]
  rw [Procedure.expressions, placed, hdefaults, Body.expressions_label,
    Body.expressions_mapExpressions, ProcedureDecl.expressions, List.map_append]

/-! ### Methods and classes -/

theorem Bindings.perm_set {α : Type} {bs : Bindings α} (hbs : bs.names.Nodup) (name : String)
    (a : α) : (bs.set name a).Perm ((name, a) :: bs.filter fun b => b.1 ≠ name) := by
  induction bs with
  | nil => exact .refl _
  | cons b rest ih =>
      obtain ⟨n, v⟩ := b
      obtain ⟨hn, hrest⟩ := List.nodup_cons.mp hbs
      by_cases h : name = n
      · subst h
        rw [Bindings.set, if_pos rfl, List.filter_cons_of_neg (by simp), List.filter_eq_self.mpr]
        intro b hb
        have hne : b.1 ≠ name := fun heq => hn (List.mem_map.mpr ⟨b, hb, heq⟩)
        simpa using hne
      · rw [Bindings.set, if_neg h, List.filter_cons_of_pos (by simpa using Ne.symm h)]
        exact ((ih hrest).cons (n, v)).trans (.swap _ _ _)

theorem Bindings.nodup_set {α : Type} {bs : Bindings α} (hbs : bs.names.Nodup) (name : String)
    (a : α) : (bs.set name a).names.Nodup := by
  refine ((perm_set hbs name a).map (·.1)).nodup_iff.mpr (List.nodup_cons.mpr ⟨?_, ?_⟩)
  · simp
  · exact (List.filter_sublist.map _).nodup hbs

namespace Registry

def methodExpressions (bs : Bindings Procedure) : List Expression :=
  bs.flatMap fun m => m.2.expressions

/-- Of the methods that were there before, those stay that are not declared anew, and the last
declaration of each name comes in addition. -/
theorem Draft.perm_methods (d : Draft) (file cls : String) (decls : List ProcedureDecl)
    {done : Bindings Procedure} (hdone : done.names.Nodup) :
    (methodExpressions (d.methods file cls decls done).2).Perm
      (methodExpressions (done.filter fun m => !decls.any fun q => q.name = m.1) ++
        ((ProcedureDecl.lasting decls).flatMap ProcedureDecl.expressions).map
          (Expression.inFile file)) := by
  induction decls generalizing d done with
  | nil => simp [methods, ProcedureDecl.lasting]
  | cons p decls ih =>
      let placed := p.placed file (cls ++ "." ++ p.name) d.locks
      have hperm := ih (d.procedure file (cls ++ "." ++ p.name) p).1
        (Bindings.nodup_set hdone p.name placed)
      have hset := ((Bindings.perm_set hdone p.name placed).filter
        fun m => !decls.any fun q => q.name = m.1).flatMap_right fun m => m.2.expressions
      have hkept : (done.filter fun m => m.1 ≠ p.name).filter
          (fun m => !decls.any fun q => q.name = m.1) =
          done.filter fun m => !(p :: decls).any fun q => q.name = m.1 := by
        rw [List.filter_filter]
        refine List.filter_congr fun m _ => ?_
        simp [Bool.and_comm, eq_comm]
      refine hperm.trans ((hset.append_right _).trans ?_)
      by_cases hlater : decls.any (fun q => q.name = p.name) = true
      · rw [List.filter_cons_of_neg (by simp [hlater]), hkept, ProcedureDecl.lasting, if_pos hlater]
        exact .refl _
      · rw [List.filter_cons_of_pos (by simpa using hlater), hkept, ProcedureDecl.lasting,
          if_neg hlater, List.flatMap_cons, List.flatMap_cons, List.map_append,
          ProcedureDecl.expressions_placed, List.append_assoc]
        exact List.perm_append_comm_assoc _ _ _

theorem Draft.perm_level (d : Draft) (file : String) (decl : ClassDecl) (ancestors : List Level) :
    (Entry.classDef ⟨(d.level file decl).2, ancestors⟩).expressions.Perm
      (decl.expressions.map (Expression.inFile file)) := by
  have hnone : (Bindings.names ([] : Bindings Procedure)).Nodup := List.nodup_nil
  have hmethods := d.perm_methods file decl.name decl.methods hnone
  obtain ⟨name, parent, methods, ctor⟩ := decl
  rw [ClassDecl.expressions, List.map_append]
  cases ctor with
  | none => exact hmethods.append_right _
  | some p =>
      refine hmethods.append (List.Perm.of_eq ?_)
      exact ProcedureDecl.expressions_placed file _ _ p

def Draft.expressions (d : Draft) : List Expression :=
  d.entries.flatMap fun e => e.2.expressions

theorem Draft.EntersAll.perm_expressions {file : String} {d d' : Draft} {decls : List ClassDecl}
    (h : EntersAll file d decls d') :
    d'.expressions.Perm
      (d.expressions ++ (decls.flatMap ClassDecl.expressions).map (Expression.inFile file)) := by
  induction h with
  | nil d => simp
  | @cons d d' decl decls ancestors hfree hprecedes hrest ih =>
      refine ih.trans ?_
      have henter : (d.enter file decl ancestors).expressions =
          d.expressions ++ (Entry.classDef ⟨(d.level file decl).2, ancestors⟩).expressions := by
        simp [Draft.expressions, Draft.enter]
      rw [henter, List.flatMap_cons, List.map_append, List.append_assoc]
      exact ((d.perm_level file decl ancestors).append_right _).append_left _

/-! ### Other names -/

theorem Draft.expressions_of_insert {d d' : Draft} {name : String} {e : Entry}
    (h : d.insert name e = .ok d') : d'.expressions = d.expressions ++ e.expressions := by
  simp [Draft.expressions, (Draft.insert_eq_ok h).2]

theorem Draft.expressions_addExtensions {d d' : Draft} {es : List Extension}
    (h : d.addExtensions es = .ok d') : d'.expressions = d.expressions := by
  induction es generalizing d with
  | nil =>
      obtain rfl := Except.ok.inj h
      rfl
  | cons e es ih =>
      obtain ⟨d₁, hinsert, hrest⟩ := exists_of_bind_eq_ok h
      rw [ih hrest, Draft.expressions_of_insert hinsert]
      exact List.append_nil _

theorem Draft.expressions_addRecords {d d' : Draft} {h h' : Heap} {decls : List RecordDecl}
    (hadd : d.addRecords h decls = .ok (d', h')) : d'.expressions = d.expressions := by
  induction decls generalizing d h with
  | nil =>
      obtain ⟨rfl, -⟩ := Prod.mk.inj (Except.ok.inj hadd)
      rfl
  | cons decl decls ih =>
      obtain ⟨d₁, hinsert, hrest⟩ := exists_of_bind_eq_ok hadd
      rw [ih hrest, Draft.expressions_of_insert hinsert]
      exact List.append_nil _

theorem Draft.expressions_addProcedures {d d' : Draft} {file : String}
    {decls : List ProcedureDecl} (h : d.addProcedures file decls = .ok d') :
    d'.expressions = d.expressions ++
      (decls.flatMap ProcedureDecl.expressions).map (Expression.inFile file) := by
  induction decls generalizing d with
  | nil =>
      obtain rfl := Except.ok.inj h
      simp
  | cons p decls ih =>
      obtain ⟨d₁, hinsert, hrest⟩ := exists_of_bind_eq_ok h
      have hplaced : (Entry.procedure (p.placed file p.name d.locks)).expressions =
          p.expressions.map (Expression.inFile file) :=
        ProcedureDecl.expressions_placed file p.name d.locks p
      have hfirst : d₁.expressions = d.expressions ++ p.expressions.map (Expression.inFile file) :=
        (Draft.expressions_of_insert hinsert).trans (congrArg _ hplaced)
      rw [ih hrest, hfirst, List.flatMap_cons, List.map_append, List.append_assoc]

/-- The expressions of a registry are those of its source, in its file. -/
theorem perm_expressions_build {h h' : Heap} {file : String} {extensions : List Extension}
    {source : Source} {r : Registry} (hbuild : build h file extensions source = .ok (h', r)) :
    r.expressions.Perm (source.expressions.map (Expression.inFile file)) := by
  obtain ⟨d₁, d₂, h₂, d₃, d₄, entered, h₁, h₂, h₃, henters, hperm, rfl⟩ := entersAll_build hbuild
  have hbuiltin : Draft.expressions ⟨builtinEntries, h.locks.size⟩ = [] := rfl
  have hothers : d₃.expressions =
      (source.procedures.flatMap ProcedureDecl.expressions).map (Expression.inFile file) := by
    rw [Draft.expressions_addProcedures h₃, Draft.expressions_addRecords h₂,
      Draft.expressions_addExtensions h₁, hbuiltin, List.nil_append]
  have hentries : d₄.expressions.Perm
      ((source.procedures.flatMap ProcedureDecl.expressions).map (Expression.inFile file) ++
        (source.classes.flatMap ClassDecl.expressions).map (Expression.inFile file)) := by
    rw [← hothers]
    exact henters.perm_expressions.trans
      (((hperm.flatMap_right ClassDecl.expressions).map _).append_left _)
  have hmain : Body.expressions (d₄.place file source.main).2 =
      (Body.expressions source.main).map (Expression.inFile file) :=
    (Body.expressions_label _ _).trans (Body.expressions_mapExpressions _ _)
  rw [Source.expressions, List.map_append, List.map_append, List.append_assoc]
  exact (List.Perm.of_eq hmain).append hentries

/-! ### Levels of ancestors -/

def Owns (entries : Bindings Entry) : Prop :=
  ∀ name c, (name, Entry.classDef c) ∈ entries → ∀ l ∈ c.levels,
    ∃ name' c', (name', Entry.classDef c') ∈ entries ∧ c'.own = l

theorem owns_builtinEntries : Owns builtinEntries := by
  have hmem : ∀ k : ErrorKind, (k.className, Entry.classDef (.builtin k)) ∈ builtinEntries :=
    fun k => List.mem_map_of_mem (by cases k <;> decide)
  intro name c hc l hl
  obtain ⟨k, -, hk⟩ := List.mem_map.mp hc
  obtain rfl : Class.builtin k = c := by
    have heq := (Prod.mk.inj hk).2
    injection heq
  rcases List.mem_cons.mp hl with rfl | hl
  · exact ⟨_, _, hmem k, rfl⟩
  · refine ⟨_, _, hmem .general, ?_⟩
    rw [Class.builtin] at hl
    split at hl
    · cases hl
    · exact (List.mem_singleton.mp hl).symm

theorem Owns.append {entries added : Bindings Entry} (h : Owns entries)
    (hadded : ∀ e ∈ added, e.2.class? = none) : Owns (entries ++ added) := by
  intro name c hc l hl
  rcases List.mem_append.mp hc with hc | hc
  · obtain ⟨name', c', hc', hown⟩ := h name c hc l hl
    exact ⟨name', c', List.mem_append_left _ hc', hown⟩
  · cases hadded _ hc

theorem Owns.entersAll {file : String} {d d' : Draft} {decls : List ClassDecl}
    (h : Owns d.entries) (henters : Draft.EntersAll file d decls d') : Owns d'.entries := by
  induction henters with
  | nil d => exact h
  | @cons d d' decl decls ancestors hfree hprecedes hrest ih =>
      refine ih fun name c hc l hl => ?_
      have hkeep : ∀ l, (∃ name' c', (name', Entry.classDef c') ∈ d.entries ∧ c'.own = l) →
          ∃ name' c', (name', Entry.classDef c') ∈ (d.enter file decl ancestors).entries ∧
            c'.own = l := fun l ⟨name', c', hc', hown⟩ =>
        ⟨name', c', List.mem_append_left _ hc', hown⟩
      rcases List.mem_append.mp hc with hold | hnew
      · exact hkeep l (h name c hold l hl)
      · obtain ⟨rfl, hcls⟩ := Prod.mk.inj (List.mem_singleton.mp hnew)
        injection hcls with hcls
        subst hcls
        rcases List.mem_cons.mp hl with rfl | hl
        · exact ⟨_, _, hc, rfl⟩
        · cases hprecedes with
          | root => cases hl
          | parent hparent hclass =>
              have hp := Bindings.mem_of_get? (Draft.class?_eq_some_iff.mp hclass)
              exact hkeep l (h _ _ hp l hl)

/-- The code of a program, inherited code included, is written in its registry. -/
theorem expressions_of_repertoire {h h' : Heap} {file : String} {extensions : List Extension}
    {source : Source} {r : Registry} (hbuild : build h file extensions source = .ok (h', r))
    {p : Procedure} (hp : p ∈ r.repertoire.procedures) :
    ∀ e ∈ p.expressions, e ∈ r.expressions := by
  obtain ⟨d₁, d₂, h₂, d₃, d₄, entered, h₁, h₂, h₃, henters, hperm, rfl⟩ := entersAll_build hbuild
  have howns : Owns d₄.entries := by
    obtain ⟨added, hentries, -, hadded⟩ := ((Draft.appends_addExtensions h₁).trans
      (Draft.appends_addRecords h₂)).trans (Draft.appends_addProcedures h₃)
    refine Owns.entersAll ?_ henters
    rw [hentries]
    exact owns_builtinEntries.append hadded
  intro e he
  obtain ⟨⟨name, entry⟩, hentry, hp⟩ := List.mem_flatMap.mp hp
  refine List.mem_append_right _ (List.mem_flatMap.mpr ?_)
  cases entry with
  | procedure q =>
      obtain rfl := List.mem_singleton.mp hp
      exact ⟨_, hentry, he⟩
  | classDef c =>
      obtain ⟨l, hl, hp⟩ := List.mem_flatMap.mp hp
      obtain ⟨name', c', hc', rfl⟩ := howns name c hentry l hl
      refine ⟨_, hc', ?_⟩
      rcases List.mem_append.mp hp with hp | hp
      · obtain ⟨m, hm, rfl⟩ := List.mem_map.mp hp
        exact List.mem_append_left _ (List.mem_flatMap.mpr ⟨m, hm, he⟩)
      · refine List.mem_append_right _ ?_
        rw [Option.mem_toList.mp hp]
        exact he
  | record ref => cases hp
  | extension x => cases hp

end Registry

end Statute
