import Statute.Proofs.Registry.Lineage
import Statute.Proofs.Text.Ranking

/-!
# Which hierarchies are accepted

A program is refused if two of its names collide. If they do not, then it is refused because of its
classes alone: the chain of parents of a class comes back to where it was, or it comes to a name
that is no class. The search for ancestors finds one of the two if there is one, because every class
on the way is entered, waits, or has the class that is looked at as an ancestor.

The order in which classes are declared does not matter. They are looked for by name, and in the
order of their names, and the names that come close to an unknown parent are those of a set.
-/

namespace Statute

open Relation (TransGen)

/-! ### Names -/

namespace Registry

variable {α β : Type} {taken names names' : List String}

/-- Names are given out where others are taken. That goes well if no name occurs twice. -/
inductive GivesOut (taken names : List String) : Except Failure α → Prop
  | given {a : α} (hnodup : (taken ++ names).Nodup) : GivesOut taken names (.ok a)
  | refused {f : Failure} (hnodup : ¬ (taken ++ names).Nodup) (hkind : f.kind = .duplicateName) :
      GivesOut taken names (.error f)

theorem GivesOut.perm {taken' : List String} {x : Except Failure α} (h : GivesOut taken names x)
    (hperm : (taken ++ names).Perm (taken' ++ names')) : GivesOut taken' names' x := by
  cases h with
  | given hnodup => exact .given (hperm.nodup_iff.mp hnodup)
  | refused hnodup hkind => exact .refused (fun h => hnodup (hperm.nodup_iff.mpr h)) hkind

theorem GivesOut.bind {x : Except Failure α} {g : α → Except Failure β}
    (hx : GivesOut taken names x)
    (hg : ∀ a, x = .ok a → (taken ++ names).Nodup → GivesOut (taken ++ names) names' (g a)) :
    GivesOut taken (names ++ names') (x >>= g) := by
  cases hx with
  | given hnodup => exact (hg _ rfl hnodup).perm (List.Perm.of_eq (List.append_assoc _ _ _))
  | refused hnodup hkind =>
      refine .refused (fun h => hnodup ?_) hkind
      rw [← List.append_assoc] at h
      exact (List.nodup_append.mp h).1

theorem GivesOut.andThen {x : Except Failure α} {g : α → Except Failure β}
    (hx : GivesOut taken names x) (hg : ∀ a, ∃ b, g a = .ok b) :
    GivesOut taken names (x >>= g) := by
  cases hx with
  | @given a hnodup =>
      obtain ⟨b, hb⟩ := hg a
      change GivesOut taken names (g a)
      rw [hb]
      exact .given hnodup
  | refused hnodup hkind => exact .refused hnodup hkind

namespace Draft

variable {d d' : Draft} {file name : String}

theorem givesOut_insert (hnames : d.entries.names.Nodup) (name : String) (e : Entry) :
    GivesOut d.entries.names [name] (d.insert name e) := by
  have hnodup : (d.entries.names ++ [name]).Nodup ↔ name ∉ d.entries.names := by
    rw [List.nodup_append, and_iff_right hnames, and_iff_right (List.nodup_singleton name)]
    simp only [List.mem_singleton, forall_eq]
    exact ⟨fun h hmem => h name hmem rfl, fun h a ha heq => h (heq ▸ ha)⟩
  unfold insert
  split
  · next htaken => exact .refused (fun h => hnodup.mp h (Bindings.contains_iff.mp htaken)) rfl
  · next hfree => exact .given (hnodup.mpr fun h => hfree (Bindings.contains_iff.mpr h))

theorem names_of_insert {e : Entry} (h : d.insert name e = .ok d') :
    d'.entries.names = d.entries.names ++ [name] := by
  rw [(insert_eq_ok h).2, Bindings.names, List.map_append]
  rfl

theorem givesOut_addExtensions (hnames : d.entries.names.Nodup) (es : List Extension) :
    GivesOut d.entries.names (es.map (·.name)) (d.addExtensions es) := by
  induction es generalizing d with
  | nil => exact .given (by simpa using hnames)
  | cons e es ih =>
      refine (givesOut_insert hnames e.name _).bind fun d' hd' hnodup => ?_
      rw [← names_of_insert hd'] at hnodup ⊢
      exact ih hnodup

theorem givesOut_addRecords (hnames : d.entries.names.Nodup) (h : Heap)
    (decls : List RecordDecl) :
    GivesOut d.entries.names (decls.map (·.name)) (d.addRecords h decls) := by
  induction decls generalizing d h with
  | nil => exact .given (by simpa using hnames)
  | cons decl decls ih =>
      refine (givesOut_insert hnames decl.name _).bind fun d' hd' hnodup => ?_
      rw [← names_of_insert hd'] at hnodup ⊢
      exact ih hnodup _

theorem givesOut_addProcedures (hnames : d.entries.names.Nodup) (file : String)
    (decls : List ProcedureDecl) :
    GivesOut d.entries.names (decls.map (·.name)) (d.addProcedures file decls) := by
  induction decls generalizing d with
  | nil => exact .given (by simpa using hnames)
  | cons decl decls ih =>
      -- Placing the procedure takes locks and gives out no name.
      let d₀ := (d.procedure file decl.name decl).1
      refine (givesOut_insert (d := d₀) hnames decl.name _).bind fun d' hd' hnodup => ?_
      rw [← names_of_insert hd'] at hnodup ⊢
      exact ih hnodup

theorem givesOut_checkClassNames (seen : List String) (decls : List ClassDecl)
    (hnames : (d.entries.names ++ seen).Nodup) :
    GivesOut (d.entries.names ++ seen) (decls.map (·.name)) (d.checkClassNames seen decls) := by
  induction decls generalizing seen with
  | nil => exact .given (by simpa using hnames)
  | cons decl decls ih =>
      have hmem : (d.entries.contains decl.name || seen.contains decl.name) = true ↔
          decl.name ∈ d.entries.names ++ seen := by
        rw [Bool.or_eq_true, Bindings.contains_iff, List.contains_iff_mem, List.mem_append]
      have hperm : (d.entries.names ++ (decl.name :: seen)).Perm
          (decl.name :: (d.entries.names ++ seen)) := List.perm_middle
      rw [checkClassNames, List.map_cons]
      split
      · next htaken =>
          refine .refused (fun h => ?_) rfl
          exact (List.nodup_middle.mp h).notMem (List.mem_append_left _ (hmem.mp htaken))
      · next hfree =>
          have hnodup : (d.entries.names ++ (decl.name :: seen)).Nodup :=
            hperm.nodup_iff.mpr (List.nodup_cons.mpr ⟨fun h => hfree (hmem.mpr h), hnames⟩)
          exact (ih _ hnodup).perm ((hperm.append_right _).trans List.perm_middle.symm)

end Draft

/-- Names are given out to everything but the classes. -/
def prepare (h : Heap) (file : String) (extensions : List Extension) (source : Source) :
    Except Failure (Draft × Heap) := do
  let d : Draft := ⟨builtinEntries, h.locks.size⟩
  let d ← d.addExtensions (Primitive.all.map Primitive.toExtension ++ extensions)
  let (d, h) ← d.addRecords h source.records
  let d ← d.addProcedures file source.procedures
  return (d, h)

/-- The names of the classes are found to be free as well. -/
def openDraft (h : Heap) (file : String) (extensions : List Extension) (source : Source) :
    Except Failure (Draft × Heap) := do
  let (d, h) ← prepare h file extensions source
  d.checkClassNames [] source.classes
  return (d, h)

def close (file : String) (main : Body) (h : Heap) (d : Draft) : Heap × Registry :=
  (h.reserveLocks (d.place file main).1.locks, ⟨d.entries, (d.place file main).2, file⟩)

theorem build_eq (h : Heap) (file : String) (extensions : List Extension) (source : Source) :
    build h file extensions source =
      openDraft h file extensions source >>= fun p =>
        p.1.addClasses file source.classes (Text.sorted (source.classes.map (·.name))) >>=
          fun d => .ok (close file source.main p.2 d) := by
  simp only [build, openDraft, prepare, bind_assoc, pure_bind]
  rfl

end Registry

/-- The names that a program gives out to things that are no classes. -/
def Source.otherNames (extensions : List Extension) (source : Source) : List String :=
  (Primitive.all.map Primitive.toExtension ++ extensions).map (·.name) ++
    (source.records.map (·.name) ++ source.procedures.map (·.name))

/-- All names of a program, those of the built-in classes included. -/
def Source.names (extensions : List Extension) (source : Source) : List String :=
  ErrorKind.all.map ErrorKind.className ++ source.otherNames extensions ++
    source.classes.map (·.name)

namespace Registry

variable {h h₂ : Heap} {file : String} {extensions : List Extension} {source : Source} {d : Draft}

theorem Draft.Appends.names {names : List String} {d' : Draft} (h : d.Appends names d') :
    d'.entries.names = d.entries.names ++ names := by
  obtain ⟨added, hadded, rfl, -⟩ := h
  rw [hadded, Bindings.names, List.map_append]
  rfl

theorem names_builtinEntries : builtinEntries.names = ErrorKind.all.map ErrorKind.className :=
  List.map_map

/-- A draft has the built-in classes and no others before the classes are entered. -/
theorem appends_prepare (hprepare : prepare h file extensions source = .ok (d, h₂)) :
    Draft.Appends ⟨builtinEntries, h.locks.size⟩ (source.otherNames extensions) d := by
  obtain ⟨d₁, h₁, hprepare⟩ := exists_of_bind_eq_ok hprepare
  obtain ⟨⟨d₂, heap₂⟩, h₂, hprepare⟩ := exists_of_bind_eq_ok hprepare
  obtain ⟨d₃, h₃, hprepare⟩ := exists_of_bind_eq_ok hprepare
  obtain ⟨rfl, -⟩ := Prod.mk.inj (Except.ok.inj hprepare)
  exact (Draft.appends_addExtensions h₁).trans
    ((Draft.appends_addRecords h₂).trans (Draft.appends_addProcedures h₃))

theorem givesOut_prepare (h : Heap) (file : String) (extensions : List Extension)
    (source : Source) :
    GivesOut (ErrorKind.all.map ErrorKind.className) (source.otherNames extensions)
      (prepare h file extensions source) := by
  have hbuiltin : builtinEntries.names.Nodup := by
    rw [names_builtinEntries]
    decide
  rw [← names_builtinEntries]
  refine (Draft.givesOut_addExtensions (d := ⟨builtinEntries, h.locks.size⟩) hbuiltin _).bind
    fun d₁ h₁ hnodup₁ => ?_
  rw [← (Draft.appends_addExtensions h₁).names] at hnodup₁ ⊢
  refine (Draft.givesOut_addRecords hnodup₁ h _).bind fun ⟨d₂, heap₂⟩ h₂ hnodup₂ => ?_
  rw [← (Draft.appends_addRecords h₂).names] at hnodup₂ ⊢
  exact (Draft.givesOut_addProcedures hnodup₂ file _).andThen fun d₃ => ⟨(d₃, heap₂), rfl⟩

theorem givesOut_classNames (hprepare : prepare h file extensions source = .ok (d, h₂))
    (hnodup : (ErrorKind.all.map ErrorKind.className ++ source.otherNames extensions).Nodup)
    (classes : List ClassDecl) :
    GivesOut (ErrorKind.all.map ErrorKind.className ++ source.otherNames extensions)
      (classes.map (·.name)) (d.checkClassNames [] classes) := by
  have hnames := (appends_prepare hprepare).names
  rw [← names_builtinEntries, ← hnames] at hnodup ⊢
  have hcheck := Draft.givesOut_checkClassNames (d := d) [] classes (by rwa [List.append_nil])
  rwa [List.append_nil] at hcheck

/-- A draft can be opened if no two names collide. -/
theorem givesOut_openDraft (h : Heap) (file : String) (extensions : List Extension)
    (source : Source) :
    GivesOut [] (source.names extensions) (openDraft h file extensions source) := by
  have hgives : GivesOut (ErrorKind.all.map ErrorKind.className)
      (source.otherNames extensions ++ source.classes.map (·.name))
      (openDraft h file extensions source) := by
    refine (givesOut_prepare h file extensions source).bind fun ⟨d, h₂⟩ hprepare hnodup => ?_
    exact (givesOut_classNames hprepare hnodup source.classes).andThen fun _ => ⟨(d, h₂), rfl⟩
  refine hgives.perm (.of_eq ?_)
  rw [Source.names, List.nil_append, List.append_assoc]

/-- In an open draft there is room for the classes of the program. -/
theorem openDraft_eq_ok (hopen : openDraft h file extensions source = .ok (d, h₂)) :
    prepare h file extensions source = .ok (d, h₂) ∧ d.Awaits source.classes := by
  obtain ⟨⟨d, heap⟩, hprepare, hopen⟩ := exists_of_bind_eq_ok hopen
  obtain ⟨⟨⟩, hcheck, hopen⟩ := exists_of_bind_eq_ok hopen
  obtain ⟨rfl, rfl⟩ := Prod.mk.inj (Except.ok.inj hopen)
  exact ⟨hprepare, (Draft.awaits_of_checkClassNames hcheck).1⟩

end Registry

/-! ### Flaws of a hierarchy -/

namespace ClassDecl

def Parent (decls : List ClassDecl) (child parent : String) : Prop :=
  ∃ c ∈ decls, c.name = child ∧ c.parent = some parent

def IsClass (decls : List ClassDecl) (name : String) : Prop :=
  (∃ c ∈ decls, c.name = name) ∨ ∃ k : ErrorKind, k.className = name

/-- Every parent is a class, and no class is its own ancestor. -/
structure Founded (decls : List ClassDecl) : Prop where
  known : ∀ c ∈ decls, ∀ parent, c.parent = some parent → IsClass decls parent
  acyclic : ∀ name, ¬ TransGen (Parent decls) name name

/-- What is wrong with a hierarchy, and the failure that says so. -/
inductive Flaw (decls : List ClassDecl) (f : Failure) : Prop
  | cycle {name : String} (hkind : f.kind = .syntaxError)
      (hcycle : TransGen (Parent decls) name name)
  | unknown {c : ClassDecl} {parent : String} (hkind : f.kind = .nameNotDefined) (hc : c ∈ decls)
      (hparent : c.parent = some parent) (hunknown : ¬ IsClass decls parent)

variable {decls : List ClassDecl} {name parent : String} {names : List String}

theorem Flaw.not_founded {f : Failure} (h : Flaw decls f) : ¬ Founded decls := by
  intro hfounded
  cases h with
  | cycle hkind hcycle => exact hfounded.acyclic _ hcycle
  | unknown hkind hc hparent hunknown => exact hunknown (hfounded.known _ hc _ hparent)

theorem Lineage.isClass (h : Lineage decls name names) : IsClass decls name := by
  cases h with
  | general => exact Or.inr ⟨_, rfl⟩
  | builtin hk => exact Or.inr ⟨_, rfl⟩
  | root hc hparent => exact Or.inl ⟨_, hc, rfl⟩
  | child hc hparent h => exact Or.inl ⟨_, hc, rfl⟩

/-- The chain of a class goes on with that of its parent. -/
theorem Lineage.of_parent (hdecls : Separate decls) (h : Lineage decls name names)
    (hparent : Parent decls name parent) :
    ∃ names', Lineage decls parent names' ∧ names = name :: names' := by
  obtain ⟨c, hc, hname, hparent⟩ := hparent
  cases h with
  | general => exact absurd hname (hdecls.fresh c hc _)
  | builtin hk => exact absurd hname (hdecls.fresh c hc _)
  | root hc' hnone =>
      rw [eq_of_name hdecls.nodup hc hc' hname, hnone] at hparent
      cases hparent
  | child hc' hparent' h =>
      rw [eq_of_name hdecls.nodup hc hc' hname, hparent'] at hparent
      obtain rfl := Option.some.inj hparent
      exact ⟨_, h, rfl⟩

/-- The chain of an ancestor is shorter. -/
theorem Lineage.ancestor (hdecls : Separate decls) (h : Lineage decls name names)
    (hancestor : TransGen (Parent decls) name parent) :
    ∃ names', Lineage decls parent names' ∧ names'.length < names.length := by
  induction hancestor with
  | single hparent =>
      obtain ⟨names', hnames', rfl⟩ := h.of_parent hdecls hparent
      exact ⟨names', hnames', Nat.lt_succ_self _⟩
  | tail _ hparent ih =>
      obtain ⟨names₁, hnames₁, hless₁⟩ := ih
      obtain ⟨names', hnames', rfl⟩ := hnames₁.of_parent hdecls hparent
      exact ⟨names', hnames', Nat.lt_trans (Nat.lt_succ_self _) hless₁⟩

/-- A hierarchy is sound if every class has a chain of parents that comes to an end. -/
theorem founded_of_lineage (hdecls : Separate decls)
    (hlineage : ∀ c ∈ decls, ∃ names, Lineage decls c.name names) : Founded decls := by
  refine ⟨fun c hc parent hparent => ?_, fun name hcycle => ?_⟩
  · obtain ⟨names, hnames⟩ := hlineage c hc
    obtain ⟨names', hnames', -⟩ := hnames.of_parent hdecls ⟨c, hc, rfl, hparent⟩
    exact hnames'.isClass
  · obtain ⟨parent, ⟨c, hc, rfl, -⟩, -⟩ := TransGen.head'_iff.mp hcycle
    obtain ⟨names, hnames⟩ := hlineage c hc
    obtain ⟨names', hnames', hless⟩ := hnames.ancestor hdecls hcycle
    rw [hnames.unique hdecls hnames'] at hless
    exact Nat.lt_irrefl _ hless

end ClassDecl

namespace Registry.Draft

open ClassDecl (Parent IsClass Flaw)

variable {d d' : Draft} {file name : String} {decls waiting waiting' : List ClassDecl}
  {below : List String} {f : Failure}

theorem kind_unknownParent (d : Draft) (waiting : List ClassDecl) (name parent : String) :
    (d.unknownParent waiting name parent).kind = .nameNotDefined := rfl

/-- Every declared class waits, is there already, or is one of those below, and the built-in classes
are there. -/
structure Covers (decls : List ClassDecl) (d : Draft) (waiting : List ClassDecl)
    (below : List String) : Prop where
  listed : ∀ c ∈ waiting, c ∈ decls
  declared : ∀ c ∈ decls, c ∈ waiting ∨ (d.class? c.name).isSome ∨ c.name ∈ below
  builtin : ∀ k : ErrorKind, (d.class? k.className).isSome

/-- A class that is taken off is below its parent. -/
theorem Covers.others (h : Covers decls d waiting below) (name : String) :
    Covers decls d (others waiting name) (name :: below) := by
  refine ⟨fun c hc => h.listed c (List.mem_of_mem_filter hc), fun c hc => ?_, h.builtin⟩
  rcases h.declared c hc with hwaiting | hknown | hbelow
  · by_cases hname : c.name = name
    · exact Or.inr (Or.inr (hname ▸ List.mem_cons_self))
    · exact Or.inl (List.mem_filter.mpr ⟨hwaiting, by simpa using hname⟩)
  · exact Or.inr (Or.inl hknown)
  · exact Or.inr (Or.inr (List.mem_cons_of_mem _ hbelow))

theorem Covers.entersAll {entered : List ClassDecl} (h : Covers decls d waiting [])
    (henters : EntersAll file d entered d') (hperm : waiting.Perm (entered ++ waiting')) :
    Covers decls d' waiting' [] := by
  have hkeeps : ∀ name, (d.class? name).isSome → (d'.class? name).isSome := fun name hname => by
    obtain ⟨c, hc⟩ := Option.isSome_iff_exists.mp hname
    exact Option.isSome_iff_exists.mpr ⟨c, henters.class? hc⟩
  refine ⟨fun c hc => h.listed c (hperm.mem_iff.mpr (List.mem_append_right _ hc)),
    fun c hc => ?_, fun k => hkeeps _ (h.builtin k)⟩
  rcases h.declared c hc with hwaiting | hknown | hbelow
  · rcases List.mem_append.mp (hperm.mem_iff.mp hwaiting) with hc | hc
    · exact Or.inr (Or.inl (henters.class?_of_mem hc))
    · exact Or.inl hc
  · exact Or.inr (Or.inl (hkeeps _ hknown))
  · cases hbelow

/-- If a class cannot be added then the hierarchy has a flaw. The classes below are descendants of
the one that is asked for, so one of them as its parent closes a cycle. -/
theorem Adds.flaw {r : Except Failure (Draft × List ClassDecl × Class)}
    (h : Adds file d waiting below name r) (hcovers : Covers decls d waiting below)
    (hbelow : ∀ b ∈ below, TransGen (Parent decls) b name) : ∀ f, r = .error f → Flaw decls f := by
  induction h with
  | known => exact nofun
  | root => exact nofun
  | child => exact nofun
  | @fails waiting below decl parent f hnew hdecl hparent hopen hadds ih =>
      have hstep : Parent decls decl.name parent :=
        ⟨decl, hcovers.listed decl hdecl, rfl, hparent⟩
      refine ih (hcovers.others decl.name) (List.forall_mem_cons.mpr ⟨.single hstep, ?_⟩)
      exact fun b hb => (hbelow b hb).tail hstep
  | @cycle waiting below decl parent hnew hdecl hparent hclosed =>
      rintro _ ⟨⟩
      have hstep : Parent decls decl.name parent :=
        ⟨decl, hcovers.listed decl hdecl, rfl, hparent⟩
      rcases List.mem_cons.mp hclosed with rfl | hclosed
      · exact .cycle rfl (.single hstep)
      · exact .cycle rfl ((hbelow parent hclosed).tail hstep)
  | @unknown waiting below decl parent hnew hdecl hparent hopen hwaiting hclass =>
      rintro _ ⟨⟩
      refine .unknown (kind_unknownParent _ _ _ _) (hcovers.listed decl hdecl) hparent ?_
      rintro (⟨c, hc, rfl⟩ | ⟨k, rfl⟩)
      · rcases hcovers.declared c hc with hc | hknown | hbelow
        · exact hwaiting c hc rfl
        · simp [hclass] at hknown
        · exact hopen (List.mem_cons_of_mem _ hbelow)
      · have hknown := hcovers.builtin k
        simp [hclass] at hknown

theorem flaw_addClasses {names : List String} (hawaits : d.Awaits waiting)
    (hcovers : Covers decls d waiting []) (hnames : ∀ n ∈ names, d.Has waiting n)
    (hadd : d.addClasses file waiting names = .error f) : Flaw decls f := by
  induction names generalizing d waiting with
  | nil => cases hadd
  | cons n names ih =>
      obtain ⟨hn, hnames⟩ := List.forall_mem_cons.mp hnames
      rw [addClasses] at hadd
      cases hfirst : addClass file (waiting.length + 1) d waiting [] n with
      | error g =>
          rw [hfirst] at hadd
          obtain rfl := Except.error.inj hadd
          have hadds := adds_addClass file [] (Nat.lt_succ_self waiting.length) hn
          exact hadds.flaw hcovers (List.forall_mem_nil _) g hfirst
      | ok r =>
          obtain ⟨d₁, waiting₁, c⟩ := r
          rw [hfirst] at hadd
          obtain ⟨entered, henters, hperm, -, hawaits₁⟩ := hawaits.addClass hn hfirst
          exact ih hawaits₁ (hcovers.entersAll henters hperm)
            (fun n hn => (hnames n hn).entersAll henters hperm) hadd

end Registry.Draft

/-! ### The order of declarations -/

theorem Text.sorted_eq_of_perm {ss ss' : List String} (h : ss.Perm ss') :
    sorted ss = sorted ss' := by
  have hpairwise : ∀ ss : List String, (sorted ss).Pairwise fun a b => decide (a ≤ b) = true :=
    fun ss => List.pairwise_mergeSort (fun a b c => by simpa using le_trans)
      (fun a b => by simpa using le_total a b) ss
  refine List.Perm.eq_of_pairwise ?_ (hpairwise ss) (hpairwise ss')
    (((sorted_perm ss).trans h).trans (sorted_perm ss').symm)
  intro a b _ _ hab hba
  exact le_antisymm (by simpa using hab) (by simpa using hba)

namespace Registry.Draft

variable {d : Draft} {file name : String} {waiting waiting' : List ClassDecl}
  {below : List String}

/-- Two outcomes that differ in the order of the classes that still wait, and in nothing else. -/
inductive Alike : Except Failure (Draft × List ClassDecl × Class) →
    Except Failure (Draft × List ClassDecl × Class) → Prop
  | found {d : Draft} {waiting waiting' : List ClassDecl} {c : Class}
      (hperm : waiting.Perm waiting') (hnames : (waiting.map (·.name)).Nodup) :
      Alike (.ok (d, waiting, c)) (.ok (d, waiting', c))
  | failed (f : Failure) : Alike (.error f) (.error f)

theorem find?_eq_of_perm (hperm : waiting.Perm waiting') (hnames : (waiting.map (·.name)).Nodup)
    (name : String) :
    waiting.find? (fun c => c.name = name) = waiting'.find? fun c => c.name = name := by
  refine Option.ext fun c => ?_
  rw [ClassDecl.find?_eq_some_iff hnames,
    ClassDecl.find?_eq_some_iff ((hperm.map _).nodup_iff.mp hnames), hperm.mem_iff]

theorem unknownParent_eq_of_perm (d : Draft) (hperm : waiting.Perm waiting')
    (name parent : String) :
    d.unknownParent waiting name parent = d.unknownParent waiting' name parent := by
  have hknown : Text.closestBy Text.distance parent (waiting.map (·.name) ++ d.classNames) =
      Text.closestBy Text.distance parent (waiting'.map (·.name) ++ d.classNames) :=
    Text.closestBy_congr fun n => ((hperm.map _).append_right _).mem_iff
  rw [unknownParent, unknownParentBy, hknown]
  rfl

theorem alike_addClass (file : String) (d : Draft) (fuel : Nat) (hperm : waiting.Perm waiting')
    (hnames : (waiting.map (·.name)).Nodup) (below : List String) (name : String) :
    Alike (addClass file fuel d waiting below name) (addClass file fuel d waiting' below name) := by
  induction fuel generalizing waiting waiting' below name with
  | zero =>
      rw [addClass, addClass, unknownParent_eq_of_perm d hperm]
      exact .failed _
  | succ fuel ih =>
      cases hclass : d.class? name with
      | some c =>
          rw [addClass, addClass, hclass]
          exact .found hperm hnames
      | none =>
          have hfind' := find?_eq_of_perm hperm hnames name
          cases hfind : waiting.find? (fun c => c.name = name) with
          | none =>
              rw [hfind] at hfind'
              rw [addClass, addClass, hclass, hfind, ← hfind']
              exact .failed _
          | some decl =>
              obtain rfl : decl.name = name := by simpa using List.find?_some hfind
              rw [hfind] at hfind'
              have hothers : (others waiting decl.name).Perm (others waiting' decl.name) :=
                hperm.filter _
              have hnames' : ((others waiting decl.name).map (·.name)).Nodup :=
                (List.filter_sublist.map _).nodup hnames
              rw [addClass_waiting hclass hfind, addClass_waiting hclass hfind'.symm]
              cases decl.parent with
              | none => exact .found hothers hnames'
              | some parent =>
                  simp only [hothers.any_eq]
                  split
                  · exact .failed _
                  · split
                    · have hparent := ih hothers hnames' (decl.name :: below) parent
                      generalize addClass file fuel d (others waiting decl.name)
                        (decl.name :: below) parent = x at hparent
                      generalize addClass file fuel d (others waiting' decl.name)
                        (decl.name :: below) parent = y at hparent
                      cases hparent with
                      | found hperm hnames => exact .found hperm hnames
                      | failed f => exact .failed f
                    · rw [unknownParent_eq_of_perm d hothers]
                      exact .failed _

/-- Classes are entered in the same way, in whatever order they wait, and they are refused with the
same words. -/
theorem addClasses_eq_of_perm {names : List String} (hperm : waiting.Perm waiting')
    (hnames : (waiting.map (·.name)).Nodup) :
    d.addClasses file waiting names = d.addClasses file waiting' names := by
  induction names generalizing d waiting waiting' with
  | nil => rfl
  | cons n names ih =>
      have halike := alike_addClass file d (waiting.length + 1) hperm hnames [] n
      rw [addClasses, addClasses, ← hperm.length_eq]
      generalize addClass file (waiting.length + 1) d waiting [] n = x at halike
      generalize addClass file (waiting.length + 1) d waiting' [] n = y at halike
      cases halike with
      | found hperm hnames => exact ih hperm hnames
      | failed f => rfl

end Registry.Draft

namespace Registry

variable {h h₂ : Heap} {file : String} {extensions : List Extension} {source : Source} {d : Draft}

theorem GivesOut.exists_ok {α : Type} {taken names : List String} {x : Except Failure α}
    (hx : GivesOut taken names x) (hnodup : (taken ++ names).Nodup) : ∃ a, x = .ok a := by
  cases hx with
  | given => exact ⟨_, rfl⟩
  | refused hcollide => exact absurd hnodup hcollide

theorem openDraft_eq_of_perm {classes : List ClassDecl}
    (hnames : (source.names extensions).Nodup) (hperm : classes.Perm source.classes) :
    openDraft h file extensions { source with classes := classes } =
      openDraft h file extensions source := by
  obtain ⟨hothers, -, -⟩ := List.nodup_append.mp hnames
  have hprepare' : prepare h file extensions { source with classes := classes } =
      prepare h file extensions source := rfl
  rw [openDraft, openDraft, hprepare']
  cases hprepare : prepare h file extensions source with
  | error f => rfl
  | ok p =>
      have hfree : ∀ decls : List ClassDecl, decls.Perm source.classes →
          p.1.checkClassNames [] decls = .ok () := fun decls hdecls =>
        ((givesOut_classNames hprepare hothers decls).exists_ok
          (((hdecls.map _).append_left _).nodup_iff.mpr hnames)).choose_spec
      change (p.1.checkClassNames [] classes >>= fun _ => .ok p) =
        p.1.checkClassNames [] source.classes >>= fun _ => .ok p
      rw [hfree classes hperm, hfree source.classes (.refl _)]

/-- A program is refused if its names collide. -/
theorem build_of_collision (h : Heap) (file : String)
    (hcollide : ¬ (source.names extensions).Nodup) :
    ∃ f, build h file extensions source = .error f ∧ f.kind = .duplicateName := by
  have hgives := givesOut_openDraft h file extensions source
  rw [build_eq]
  generalize openDraft h file extensions source = x at hgives
  cases hgives with
  | given hnodup => exact absurd hnodup hcollide
  | refused _ hkind => exact ⟨_, rfl, hkind⟩

/-- If no names collide, then the order in which classes are declared makes no difference, not even
to the words of a failure. -/
theorem build_eq_of_perm (h : Heap) (file : String) {classes : List ClassDecl}
    (hnames : (source.names extensions).Nodup) (hperm : classes.Perm source.classes) :
    build h file extensions { source with classes := classes } =
      build h file extensions source := by
  rw [build_eq, build_eq, openDraft_eq_of_perm hnames hperm]
  have hclasses : (classes.map (·.name)).Nodup :=
    (hperm.map _).nodup_iff.mpr (List.nodup_append.mp hnames).2.1
  refine congrArg _ (funext fun p => ?_)
  dsimp only
  rw [Text.sorted_eq_of_perm (hperm.map (·.name)), Draft.addClasses_eq_of_perm hperm hclasses]

/-- The order in which classes are declared makes no difference but for the name that is found to
collide first. -/
theorem mapError_build (h : Heap) (file : String) (extensions : List Extension) (source : Source)
    {classes : List ClassDecl} (hperm : classes.Perm source.classes) :
    (build h file extensions { source with classes := classes }).mapError Failure.kind =
      (build h file extensions source).mapError Failure.kind := by
  by_cases hnames : (source.names extensions).Nodup
  · rw [build_eq_of_perm h file hnames hperm]
  · have hcollide : ¬ (Source.names extensions { source with classes := classes }).Nodup :=
      fun hnodup => hnames (((hperm.map _).append_left _).nodup_iff.mp hnodup)
    obtain ⟨f, hf, hkind⟩ := build_of_collision h file hnames
    obtain ⟨f', hf', hkind'⟩ := build_of_collision h file hcollide
    rw [hf, hf']
    exact congrArg Except.error (hkind'.trans hkind.symm)

/-! ### Registries -/

theorem get?_builtinEntries (k : ErrorKind) :
    builtinEntries.get? k.className = some (.classDef (.builtin k)) := by
  cases k <;> rfl

theorem class?_builtin {added : Bindings Entry} (hd : d.entries = builtinEntries ++ added)
    (k : ErrorKind) : d.class? k.className = some (.builtin k) := by
  rw [Draft.class?_eq_some_iff, hd, Bindings.get?_append, get?_builtinEntries, Option.some_or]

theorem lookup?_eq_class_iff {r : Registry} (hd : d.entries = r.entries) {name : String}
    {c : Class} : r.lookup? name = some (.classDef c) ↔ d.class? name = some c := by
  rw [Draft.class?_eq_some_iff, hd, lookup?]
  cases r.entries.get? name with
  | none => simp
  | some e => cases e <;> simp [Entry.value]

theorem separate_of_nodup (hnames : (source.names extensions).Nodup) :
    ClassDecl.Separate source.classes := by
  obtain ⟨hothers, hclasses, hdisjoint⟩ := List.nodup_append.mp hnames
  refine ⟨hclasses, fun c hc k hname => ?_⟩
  have hbuiltin : k.className ∈ ErrorKind.all.map ErrorKind.className :=
    List.mem_map_of_mem k.mem_all
  exact hdisjoint _ (List.mem_append_left _ hbuiltin) _ (List.mem_map_of_mem hc) hname.symm

theorem nodup_of_build {h' : Heap} {r : Registry}
    (hbuild : build h file extensions source = .ok (h', r)) : (source.names extensions).Nodup := by
  rw [build_eq] at hbuild
  obtain ⟨p, hopen, -⟩ := exists_of_bind_eq_ok hbuild
  have hgives := givesOut_openDraft h file extensions source
  rw [hopen] at hgives
  cases hgives with
  | given hnodup => exact hnodup

/-- The classes of a registry are those of its program, and they descend as declared. -/
theorem descends_build {h' : Heap} {r : Registry}
    (hbuild : build h file extensions source = .ok (h', r)) :
    ∃ d : Draft, d.entries = r.entries ∧ d.Descends file source.classes ∧
      ∀ name, ClassDecl.IsClass source.classes name → (d.class? name).isSome := by
  obtain ⟨d₁, d₂, h₂, d₃, d₄, entered, h₁, h₂, h₃, henters, hperm, rfl⟩ := entersAll_build hbuild
  obtain ⟨added, hentries, -, hadded⟩ := ((Draft.appends_addExtensions h₁).trans
    (Draft.appends_addRecords h₂)).trans (Draft.appends_addProcedures h₃)
  have hdescends : d₃.Descends file source.classes := Draft.descends_builtin hentries hadded
  refine ⟨d₄, rfl, hdescends.entersAll henters fun c hc => hperm.mem_iff.mp hc, ?_⟩
  rintro name (⟨c, hc, rfl⟩ | ⟨k, rfl⟩)
  · exact henters.class?_of_mem (hperm.mem_iff.mpr hc)
  · rw [henters.class? (class?_builtin hentries k), Option.isSome_some]

/-- If names do not collide then a program is refused for a flaw of its hierarchy only. -/
theorem flaw_of_build (hnames : (source.names extensions).Nodup) {f : Failure}
    (hbuild : build h file extensions source = .error f) : ClassDecl.Flaw source.classes f := by
  have hgives := givesOut_openDraft h file extensions source
  rw [build_eq] at hbuild
  cases hopen : openDraft h file extensions source with
  | error g =>
      rw [hopen] at hgives
      cases hgives with
      | refused hnodup => exact absurd hnames hnodup
  | ok p =>
      obtain ⟨d, h₂⟩ := p
      rw [hopen] at hbuild
      obtain ⟨hprepare, hawaits⟩ := openDraft_eq_ok hopen
      obtain ⟨added, hentries, -⟩ := appends_prepare hprepare
      have hcovers : Draft.Covers source.classes d source.classes [] :=
        ⟨fun c hc => hc, fun c hc => Or.inl hc, fun k => by
          rw [class?_builtin hentries k, Option.isSome_some]⟩
      have hhas : ∀ n ∈ Text.sorted (source.classes.map (·.name)), d.Has source.classes n :=
        fun n hn => Or.inl (by simpa using hn)
      cases hadd : d.addClasses file source.classes
          (Text.sorted (source.classes.map (·.name))) with
      | error g =>
          obtain rfl : g = f := by
            change (d.addClasses file source.classes _ >>= _) = _ at hbuild
            rw [hadd] at hbuild
            exact Except.error.inj hbuild
          exact Draft.flaw_addClasses hawaits hcovers hhas hadd
      | ok d' =>
          change (d.addClasses file source.classes _ >>= _) = _ at hbuild
          rw [hadd] at hbuild
          cases hbuild

/-- A program whose names collide is refused for that. Any other program is accepted if and only if
every parent is a class and no class is its own ancestor, and else the failure says which of the two
is the case. In the registry a class has exactly the ancestry that its line of declared parents
gives it. It stands for the kind of the first built-in class of that line, and its instances answer
a name with the last declaration in the nearest class of the line that declares it. The order in
which classes are declared changes neither the registry nor the kind of the failure. -/
theorem build_accepts_founded (h : Heap) (file : String) (extensions : List Extension)
    (source : Source) :
    (¬ (source.names extensions).Nodup →
        ∃ f, build h file extensions source = .error f ∧ f.kind = .duplicateName) ∧
      ((source.names extensions).Nodup →
        ((∃ h' r, build h file extensions source = .ok (h', r)) ↔
            ClassDecl.Founded source.classes) ∧
          ∀ f, build h file extensions source = .error f →
            ClassDecl.Flaw source.classes f) ∧
      (∀ h' r, build h file extensions source = .ok (h', r) → ∀ name,
        (ClassDecl.IsClass source.classes name ↔ ∃ c, r.lookup? name = some (.classDef c)) ∧
          ∀ c, r.lookup? name = some (.classDef c) →
            (∀ names, ClassDecl.Lineage source.classes name names ↔ names = c.ancestry) ∧
              c.errorRoot = c.ancestry.findSome? ErrorKind.ofClassName? ∧
              ∀ (heap : Heap) (o : ObjectRef) (method : String), (heap.object o).cls = c →
                Option.Rel (ProcedureDecl.Becomes file method) (heap.method? o method)
                  (c.ancestry.findSome? (ClassDecl.declared? source.classes method))) ∧
      ∀ classes : List ClassDecl, classes.Perm source.classes →
        (build h file extensions { source with classes := classes }).mapError Failure.kind =
          (build h file extensions source).mapError Failure.kind := by
  refine ⟨fun hcollide => ?_, fun hnames => ?_, fun h' r hbuild name => ?_, fun classes hperm =>
    mapError_build h file extensions source hperm⟩
  · exact build_of_collision h file hcollide
  · have hflaw : ∀ f, build h file extensions source = .error f →
        ClassDecl.Flaw source.classes f := fun f => flaw_of_build hnames
    refine ⟨⟨?_, fun hfounded => ?_⟩, hflaw⟩
    · rintro ⟨h', r, hbuild⟩
      obtain ⟨d, -, hdescends, hclasses⟩ := descends_build hbuild
      refine ClassDecl.founded_of_lineage (separate_of_nodup hnames) fun c hc => ?_
      obtain ⟨cls, hcls⟩ := Option.isSome_iff_exists.mp (hclasses c.name (Or.inl ⟨c, hc, rfl⟩))
      exact ⟨_, hdescends.lineage _ _ hcls⟩
    · cases hbuild : build h file extensions source with
      | error f => exact absurd hfounded (hflaw f hbuild).not_founded
      | ok p => exact ⟨p.1, p.2, rfl⟩
  · have hdecls := separate_of_nodup (nodup_of_build hbuild)
    obtain ⟨d, hentries, hdescends, hclasses⟩ := descends_build hbuild
    simp only [lookup?_eq_class_iff hentries]
    refine ⟨⟨fun hname => Option.isSome_iff_exists.mp (hclasses name hname), ?_⟩, fun c hc => ?_⟩
    · rintro ⟨c, hc⟩
      exact (hdescends.lineage name c hc).isClass
    · have hlineage := hdescends.lineage name c hc
      have hdeclared := hdescends.declared name c hc
      refine ⟨fun names => ⟨fun hnames => hnames.unique hdecls hlineage, ?_⟩,
        hdeclared.errorRoot hdecls, ?_⟩
      · rintro rfl
        exact hlineage
      · rintro heap o method rfl
        exact hdeclared.method? hdecls method

/-- A class of errors that is declared before its parent. -/
def kinship : Source :=
  ⟨[], [⟨"Typo", some "Mistake", [], none⟩, ⟨"Mistake", some "SyntaxError", [], none⟩], [], []⟩

/-- The child is entered after its parent, and stands for the kind of the built-in class above. -/
theorem build_accepts_founded_kinship :
    ∃ h' r c, build Heap.empty "" [] kinship = .ok (h', r) ∧
      r.lookup? "Typo" = some (.classDef c) ∧
      c.ancestry = ["Typo", "Mistake", "SyntaxError", "Error"] ∧
      c.errorRoot = some .syntaxError := by
  have hnames : (kinship.names []).Nodup := by decide +kernel
  have hmistake : ClassDecl.Lineage kinship.classes "Mistake"
      ["Mistake", "SyntaxError", "Error"] :=
    .child (List.mem_cons_of_mem _ List.mem_cons_self) rfl
      (.builtin (k := .syntaxError) (by decide))
  have htypo : ClassDecl.Lineage kinship.classes "Typo"
      ["Typo", "Mistake", "SyntaxError", "Error"] := .child List.mem_cons_self rfl hmistake
  have hfounded : ClassDecl.Founded kinship.classes :=
    ClassDecl.founded_of_lineage (separate_of_nodup hnames)
      (List.forall_mem_cons.mpr ⟨⟨_, htypo⟩, List.forall_mem_singleton.mpr ⟨_, hmistake⟩⟩)
  obtain ⟨-, haccepted, hregistry, -⟩ := build_accepts_founded Heap.empty "" [] kinship
  obtain ⟨h', r, hbuild⟩ := (haccepted hnames).1.mpr hfounded
  obtain ⟨hclass, hdescends⟩ := hregistry h' r hbuild "Typo"
  obtain ⟨c, hc⟩ := hclass.mp (Or.inl ⟨_, List.mem_cons_self, rfl⟩)
  obtain ⟨hlineage, hroot, -⟩ := hdescends c hc
  have hancestry := (hlineage _).mp htypo
  refine ⟨h', r, c, hbuild, hc, hancestry.symm, ?_⟩
  rw [hroot, ← hancestry]
  decide

end Registry

end Statute
