import Mathlib.Data.List.Induction
import Statute.Proofs.Registry.Checking

/-!
# Lines of descent

The classes of a registry and what they inherit, in terms of their declarations. A class is entered
with the levels of its parent above its own, so its ancestry is the chain of the declared parents,
up to a class without one: `ClassDecl.Lineage`. Each level in it is a built-in one or what the class
of its name declares. The kind of error that the class stands for and the methods that it answers
with are therefore those of the nearest class of the chain that has one.
-/

namespace Statute

/-! ### Declarations -/

theorem ErrorKind.className_injective {k k' : ErrorKind} (h : k.className = k'.className) :
    k = k' := by
  have hfound := congrArg ofClassName? h
  rw [ofClassName?_className, ofClassName?_className] at hfound
  exact Option.some.inj hfound

theorem ErrorKind.className_of_ofClassName? {name : String} {k : ErrorKind}
    (h : ofClassName? name = some k) : k.className = name := by
  simpa using List.find?_some h

def ProcedureDecl.last? (name : String) (decls : List ProcedureDecl) : Option ProcedureDecl :=
  decls.reverse.find? fun p => p.name = name

theorem ProcedureDecl.last?_concat (name : String) (decls : List ProcedureDecl)
    (p : ProcedureDecl) :
    last? name (decls ++ [p]) = if p.name = name then some p else last? name decls := by
  rw [last?, List.reverse_append, List.reverse_singleton, List.singleton_append, List.find?_cons,
    last?]
  by_cases h : p.name = name <;> simp [h]

namespace ClassDecl

/-- The method of a name that the class of another name declares by itself: its last declaration
there, together with the name of the class. -/
def declared? (decls : List ClassDecl) (name cls : String) : Option (String × ProcedureDecl) :=
  (decls.find? fun c => c.name = cls).bind fun c =>
    (ProcedureDecl.last? name c.methods).map fun p => (cls, p)

/-- The chain of parents of a class, its own name first, up to a class without a parent. The
built-in classes are children of the root kind. -/
inductive Lineage (decls : List ClassDecl) : String → List String → Prop
  | general : Lineage decls ErrorKind.general.className [ErrorKind.general.className]
  | builtin {k : ErrorKind} (hk : k ≠ .general) :
      Lineage decls k.className [k.className, ErrorKind.general.className]
  | root {c : ClassDecl} (hc : c ∈ decls) (hparent : c.parent = none) :
      Lineage decls c.name [c.name]
  | child {c : ClassDecl} {parent : String} {names : List String} (hc : c ∈ decls)
      (hparent : c.parent = some parent) (h : Lineage decls parent names) :
      Lineage decls c.name (c.name :: names)

/-- The declared classes have names of their own, and these are not built in. -/
structure Separate (decls : List ClassDecl) : Prop where
  nodup : (decls.map (·.name)).Nodup
  fresh : ∀ c ∈ decls, ∀ k : ErrorKind, c.name ≠ k.className

variable {decls : List ClassDecl} {c c' : ClassDecl} {name : String}

theorem eq_of_name (hnames : (decls.map (·.name)).Nodup) (hc : c ∈ decls) (hc' : c' ∈ decls)
    (h : c.name = c'.name) : c = c' :=
  List.inj_on_of_nodup_map hnames hc hc' h

theorem find?_eq_some_iff (hnames : (decls.map (·.name)).Nodup) :
    decls.find? (fun c => c.name = name) = some c ↔ c ∈ decls ∧ c.name = name := by
  refine ⟨fun h => ⟨List.mem_of_find?_eq_some h, by simpa using List.find?_some h⟩, ?_⟩
  rintro ⟨hc, rfl⟩
  obtain ⟨c', hfind⟩ : ∃ c', decls.find? (fun d => d.name = c.name) = some c' :=
    Option.isSome_iff_exists.mp (List.find?_isSome.mpr ⟨c, hc, by simp⟩)
  have hname : c'.name = c.name := by simpa using List.find?_some hfind
  rw [hfind, eq_of_name hnames (List.mem_of_find?_eq_some hfind) hc hname]

/-- A class has one chain of parents. -/
theorem Lineage.unique (hdecls : Separate decls) {names names' : List String}
    (h : Lineage decls name names) (h' : Lineage decls name names') : names = names' := by
  induction h generalizing names' with
  | general =>
      generalize hname : ErrorKind.general.className = n at h'
      cases h' with
      | general => rfl
      | builtin hk => exact absurd (ErrorKind.className_injective hname).symm hk
      | root hc => exact absurd hname.symm (hdecls.fresh _ hc _)
      | child hc => exact absurd hname.symm (hdecls.fresh _ hc _)
  | @builtin k hk =>
      generalize hname : k.className = n at h'
      cases h' with
      | general => exact absurd (ErrorKind.className_injective hname) hk
      | builtin hk' => rw [← hname]
      | root hc => exact absurd hname.symm (hdecls.fresh _ hc _)
      | child hc => exact absurd hname.symm (hdecls.fresh _ hc _)
  | @root c hc hparent =>
      generalize hname : c.name = n at h'
      cases h' with
      | general => exact absurd hname (hdecls.fresh c hc _)
      | builtin hk => exact absurd hname (hdecls.fresh c hc _)
      | root hc' => rfl
      | child hc' hparent' =>
          rw [eq_of_name hdecls.nodup hc hc' hname, hparent'] at hparent
          cases hparent
  | @child c parent names hc hparent _ ih =>
      generalize hname : c.name = n at h'
      cases h' with
      | general => exact absurd hname (hdecls.fresh c hc _)
      | builtin hk => exact absurd hname (hdecls.fresh c hc _)
      | root hc' hparent' =>
          rw [eq_of_name hdecls.nodup hc hc' hname, hparent'] at hparent
          cases hparent
      | child hc' hparent' h' =>
          rw [eq_of_name hdecls.nodup hc hc' hname, hparent'] at hparent
          obtain rfl := Option.some.inj hparent
          rw [ih h']

end ClassDecl

/-! ### Levels -/

/-- A method is a declaration of a class in a file, under its full name. -/
def ProcedureDecl.Becomes (file name : String) (p : Procedure) (q : String × ProcedureDecl) :
    Prop :=
  ∃ n, p = q.2.placed file (q.1 ++ "." ++ name) n

namespace Registry.Draft

variable {d d' : Draft} {file name : String} {decls entered : List ClassDecl} {c : Class}

theorem methods_concat (d : Draft) (file cls : String) (decls : List ProcedureDecl)
    (p : ProcedureDecl) (done : Bindings Procedure) :
    ∃ n, (d.methods file cls (decls ++ [p]) done).2 =
      (d.methods file cls decls done).2.set p.name (p.placed file (cls ++ "." ++ p.name) n) := by
  induction decls generalizing d done with
  | nil => exact ⟨d.locks, rfl⟩
  | cons q decls ih => exact ih _ _

/-- Of several declarations of a name in a class the last one counts. -/
theorem rel_methods (d : Draft) (file cls name : String) (decls : List ProcedureDecl) :
    Option.Rel (ProcedureDecl.Becomes file name) ((d.methods file cls decls []).2.get? name)
      ((ProcedureDecl.last? name decls).map fun p => (cls, p)) := by
  induction decls using List.reverseRecOn with
  | nil => exact .none
  | append_singleton decls p ih =>
      obtain ⟨n, hset⟩ := d.methods_concat file cls decls p []
      rw [hset, Bindings.get?_set, ProcedureDecl.last?_concat]
      by_cases h : name = p.name
      · rw [if_pos h, if_pos h.symm]
        exact .some ⟨n, by rw [h]⟩
      · rw [if_neg h, if_neg (Ne.symm h)]
        exact ih

theorem level_methods (d : Draft) (file : String) (decl : ClassDecl) :
    (d.level file decl).2.methods = (d.methods file decl.name decl.methods []).2 := by
  obtain ⟨name, parent, methods, ctor⟩ := decl
  cases ctor <;> rfl

end Registry.Draft

/-- A level is built in, or it is what a class declares. -/
inductive Level.Declared (file : String) (decls : List ClassDecl) : Level → Prop
  | builtin (k : ErrorKind) : Declared file decls (Class.builtinLevel k)
  | decl {c : ClassDecl} (hc : c ∈ decls) (d : Registry.Draft) :
      Declared file decls (d.level file c).2

namespace Level.Declared

variable {file : String} {decls : List ClassDecl} {l : Level}

theorem kind (h : l.Declared file decls) (hdecls : ClassDecl.Separate decls) :
    ErrorKind.ofClassName? l.name = l.builtin := by
  cases h with
  | builtin k => exact k.ofClassName?_className
  | @decl c hc d =>
      rw [Registry.Draft.level_name, Registry.Draft.level_builtin]
      refine List.find?_eq_none.mpr fun k _ => ?_
      simpa using Ne.symm (hdecls.fresh c hc k)

theorem method (h : l.Declared file decls) (hdecls : ClassDecl.Separate decls) (name : String) :
    Option.Rel (ProcedureDecl.Becomes file name) (l.methods.lookup name)
      (ClassDecl.declared? decls name l.name) := by
  cases h with
  | builtin k =>
      have hnone : decls.find? (fun c => c.name = k.className) = none :=
        List.find?_eq_none.mpr fun c hc => by simpa using hdecls.fresh c hc k
      have hdeclared : ClassDecl.declared? decls name (Class.builtinLevel k).name = none := by
        rw [ClassDecl.declared?, Class.builtinLevel, hnone, Option.bind_none]
      rw [hdeclared]
      exact .none
  | @decl c hc d =>
      have hfind := (ClassDecl.find?_eq_some_iff hdecls.nodup).mpr ⟨hc, rfl⟩
      rw [Registry.Draft.level_name, Registry.Draft.level_methods, ClassDecl.declared?, hfind,
        Option.bind_some]
      exact d.rel_methods file c.name name c.methods

end Level.Declared

/-! ### Classes -/

theorem Option.Rel.findSome? {α β γ : Type} {R : β → γ → Prop} {f : α → Option β}
    {g : α → Option γ} {as : List α} (h : ∀ a ∈ as, Option.Rel R (f a) (g a)) :
    Option.Rel R (as.findSome? f) (as.findSome? g) := by
  induction as with
  | nil => exact .none
  | cons a as ih =>
      obtain ⟨ha, has⟩ := List.forall_mem_cons.mp h
      rw [List.findSome?_cons, List.findSome?_cons]
      cases hf : f a <;> cases hg : g a <;> rw [hf, hg] at ha <;> cases ha
      · exact ih has
      · exact .some ‹_›

/-- If levels are built in exactly where their names are, then the kind of error that a class stands
for is that of the first built-in name of its line. -/
theorem Class.errorRoot_eq {c : Class}
    (h : ∀ l ∈ c.levels, ErrorKind.ofClassName? l.name = l.builtin) :
    c.errorRoot = c.ancestry.findSome? ErrorKind.ofClassName? := by
  rw [Class.errorRoot, ancestry, List.findSome?_map]
  generalize c.levels = ls at h ⊢
  induction ls with
  | nil => rfl
  | cons l ls ih =>
      obtain ⟨hl, hls⟩ := List.forall_mem_cons.mp h
      rw [List.findSome?_cons, List.findSome?_cons, Function.comp_apply, hl, ih hls]

def Class.Declared (file : String) (decls : List ClassDecl) (c : Class) : Prop :=
  ∀ l ∈ c.levels, l.Declared file decls

namespace Class.Declared

variable {file : String} {decls : List ClassDecl} {c : Class}

/-- The kind of error that a class stands for is that of the first built-in class of its line. -/
theorem errorRoot (h : c.Declared file decls) (hdecls : ClassDecl.Separate decls) :
    c.errorRoot = c.ancestry.findSome? ErrorKind.ofClassName? :=
  Class.errorRoot_eq fun l hl => (h l hl).kind hdecls

/-- A class answers a name with the method of the nearest class of its line that declares it. -/
theorem method? (h : c.Declared file decls) (hdecls : ClassDecl.Separate decls) (name : String) :
    Option.Rel (ProcedureDecl.Becomes file name) (c.method? name)
      (c.ancestry.findSome? (ClassDecl.declared? decls name)) := by
  rw [Class.method?, ancestry, List.findSome?_map]
  exact Option.Rel.findSome? fun l hl => (h l hl).method hdecls name

end Class.Declared

/-! ### Drafts -/

namespace Registry.Draft

variable {d d' : Draft} {file name : String} {decls entered : List ClassDecl} {c : Class}

/-- The classes of a draft descend as declared. -/
structure Descends (file : String) (decls : List ClassDecl) (d : Draft) : Prop where
  lineage : ∀ name c, d.class? name = some c → ClassDecl.Lineage decls name c.ancestry
  declared : ∀ name c, d.class? name = some c → c.Declared file decls

theorem class?_enter {decl : ClassDecl} {ancestors : List Level}
    (h : (d.enter file decl ancestors).class? name = some c) :
    d.class? name = some c ∨ name = decl.name ∧ c = ⟨(d.level file decl).2, ancestors⟩ := by
  rw [class?_eq_some_iff, enter, Bindings.get?_append] at h
  cases hold : d.entries.get? name with
  | some e =>
      rw [hold, Option.some_or] at h
      exact Or.inl (class?_eq_some_iff.mpr (hold.trans h))
  | none =>
      rw [hold, Option.none_or, Bindings.get?_cons] at h
      split at h
      · next heq =>
          have hcls := Option.some.inj h
          injection hcls with hcls
          exact Or.inr ⟨heq, hcls.symm⟩
      · cases h

/-- Before any class is entered there are only the built-in ones. -/
theorem exists_builtin_of_class? {added : Bindings Entry} (hd : d.entries = builtinEntries ++ added)
    (hadded : ∀ e ∈ added, e.2.class? = none) (hc : d.class? name = some c) :
    ∃ k, name = k.className ∧ c = .builtin k := by
  have hmem := Bindings.mem_of_get? (class?_eq_some_iff.mp hc)
  rw [hd] at hmem
  rcases List.mem_append.mp hmem with hmem | hmem
  · obtain ⟨k, -, hk⟩ := List.mem_map.mp hmem
    obtain ⟨hname, hcls⟩ := Prod.mk.inj hk
    injection hcls with hcls
    exact ⟨k, hname.symm, hcls.symm⟩
  · cases hadded _ hmem

theorem descends_builtin {added : Bindings Entry} (hd : d.entries = builtinEntries ++ added)
    (hadded : ∀ e ∈ added, e.2.class? = none) : d.Descends file decls := by
  refine ⟨fun name c hc => ?_, fun name c hc l hl => ?_⟩
  · obtain ⟨k, rfl, rfl⟩ := exists_builtin_of_class? hd hadded hc
    by_cases hk : k = .general
    · subst hk
      exact .general
    · have hancestry : (Class.builtin k).ancestry =
          [k.className, ErrorKind.general.className] := by
        rw [Class.builtin, if_neg hk]
        rfl
      rw [hancestry]
      exact .builtin hk
  · obtain ⟨k, rfl, rfl⟩ := exists_builtin_of_class? hd hadded hc
    rcases List.mem_cons.mp hl with rfl | hl
    · exact .builtin k
    · rw [Class.builtin] at hl
      split at hl
      · cases hl
      · rw [List.mem_singleton.mp hl]
        exact .builtin .general

/-- Classes that are entered descend as declared. -/
theorem Descends.entersAll (h : d.Descends file decls) (henters : EntersAll file d entered d')
    (hentered : ∀ c ∈ entered, c ∈ decls) : d'.Descends file decls := by
  induction henters with
  | nil d => exact h
  | @cons d d' decl rest ancestors hfree hprecedes hrest ih =>
      obtain ⟨hdecl, hothers⟩ := List.forall_mem_cons.mp hentered
      refine ih ⟨fun name c hc => ?_, fun name c hc => ?_⟩ hothers
      · obtain hc | ⟨rfl, rfl⟩ := class?_enter hc
        · exact h.lineage name c hc
        · rw [Class.ancestry_eq, Class.name, level_name]
          cases hprecedes with
          | root hparent => exact .root hdecl hparent
          | parent hparent hclass => exact .child hdecl hparent (h.lineage _ _ hclass)
      · obtain hc | ⟨rfl, rfl⟩ := class?_enter hc
        · exact h.declared name c hc
        · refine List.forall_mem_cons.mpr ⟨.decl hdecl d, fun l hl => ?_⟩
          cases hprecedes with
          | root hparent => cases hl
          | parent hparent hclass => exact h.declared _ _ hclass l hl

end Registry.Draft

end Statute
