import Statute.Proofs.Registry.Hierarchy
import Statute.Proofs.Value.Operations
import Statute.Throwing

/-!
# Classes under their names

A registry that has been built knows every class under the name of the class, and its ancestors
under theirs. The names of the built-in classes are taken from the start, so a class of such a name
is the built-in one. Therefore the line of a class that stands for a kind of error ends with the
line of the built-in class of that kind.

A failure is of a class as well: of that of the object that was thrown, or else of the built-in one
of its kind. If what the failure says about its class is so, then the handlers that deal with it are
exactly those for a class of the line.
-/

namespace Statute

namespace Class

variable {c d : Class} {k : ErrorKind}

theorem eq_of_levels (h : c.levels = d.levels) : c = d := by
  obtain ⟨own, ancestors⟩ := c
  obtain ⟨own', ancestors'⟩ := d
  obtain ⟨rfl, rfl⟩ := List.cons.inj h
  rfl

theorem suffix_of_parent? (h : c.parent? = some d) : d.levels <:+ c.levels := by
  rw [levels_of_parent? h]
  exact List.suffix_cons _ _

/-- The lines that a line ends with: itself, and those that the line of the parent ends with. -/
theorem suffix_levels_iff :
    d.levels <:+ c.levels ↔ d = c ∨ ∃ p, c.parent? = some p ∧ d.levels <:+ p.levels := by
  refine ⟨fun h => ?_, ?_⟩
  · rcases List.suffix_cons_iff.mp h with heq | hsuffix
    · exact Or.inl (eq_of_levels heq)
    · obtain ⟨own, ancestors⟩ := c
      cases ancestors with
      | nil => cases List.suffix_nil.mp hsuffix
      | cons l ls => exact Or.inr ⟨⟨l, ls⟩, rfl, hsuffix⟩
  · rintro (rfl | ⟨p, hparent, hsuffix⟩)
    · exact List.suffix_rfl
    · exact hsuffix.trans (suffix_of_parent? hparent)

theorem parent?_builtin_general : (builtin .general).parent? = none := rfl

theorem parent?_builtin (hk : k ≠ .general) : (builtin k).parent? = some (builtin .general) := by
  unfold parent? builtin
  rw [if_neg hk]
  rfl

theorem mem_ancestry_of_suffix (h : d.levels <:+ c.levels) {name : String}
    (hname : name ∈ d.ancestry) : name ∈ c.ancestry :=
  (h.map _).subset hname

theorem mem_ancestry_builtin {name : String} :
    name ∈ (builtin k).ancestry ↔ name = k.className ∨ name = ErrorKind.general.className := by
  unfold ancestry levels builtin
  split
  · next h => simp [h, builtinLevel]
  · simp [builtinLevel]

/-- The kind of error that a class stands for is that of a built-in level of its line. -/
theorem exists_of_errorRoot (h : c.errorRoot = some k) :
    ∃ d : Class, d.levels <:+ c.levels ∧ d.own.builtin = some k := by
  obtain ⟨front, l, back, hlevels, hl, -⟩ := List.findSome?_eq_some_iff.mp h
  exact ⟨⟨l, back⟩, ⟨front, hlevels.symm⟩, hl⟩

end Class

/-! ## Registries -/

namespace Registry

variable {r : Registry} {c d : Class} {k : ErrorKind}

/-- A class and all its ancestors are what the registry knows under their names. -/
def Enrols (r : Registry) (c : Class) : Prop :=
  ∀ d : Class, d.levels <:+ c.levels → r.lookup? d.name = some (.classDef d)

theorem Enrols.lookup? (h : r.Enrols c) : r.lookup? c.name = some (.classDef c) :=
  h c List.suffix_rfl

theorem Enrols.of_suffix (h : r.Enrols c) (hsuffix : d.levels <:+ c.levels) : r.Enrols d :=
  fun e he => h e (he.trans hsuffix)

/-- All classes that a registry knows are enrolled, each under its own name. The built-in ones are
among them, and no other class has the name of a built-in one. -/
structure Orderly (r : Registry) : Prop where
  builtin : ∀ k, r.Enrols (.builtin k)
  named : ∀ name c, r.lookup? name = some (.classDef c) → c.name = name
  enrols : ∀ name c, r.lookup? name = some (.classDef c) → r.Enrols c
  kind : ∀ c, r.Enrols c → ErrorKind.ofClassName? c.name = c.own.builtin

theorem Orderly.eq_builtin (hr : r.Orderly) (hc : r.Enrols c) (hk : c.own.builtin = some k) :
    c = .builtin k := by
  have hname : c.name = k.className := by
    have hfound := (hr.kind c hc).trans hk
    exact (ErrorKind.className_of_ofClassName? hfound).symm
  have hlookup := hc.lookup?
  rw [hname, ← Class.builtin_name, (hr.builtin k).lookup?] at hlookup
  exact (Value.classDef.inj (Option.some.inj hlookup)).symm

/-- The line of a class that stands for a kind of error ends with that of the built-in class. -/
theorem Orderly.suffix_of_errorRoot (hr : r.Orderly) (hc : r.Enrols c)
    (hk : c.errorRoot = some k) : (Class.builtin k).levels <:+ c.levels := by
  obtain ⟨d, hsuffix, hd⟩ := Class.exists_of_errorRoot hk
  rwa [← hr.eq_builtin (hc.of_suffix hsuffix) hd]

/-- The kind of error that a class stands for is that of the first built-in name of its line. -/
theorem Orderly.errorRoot_eq (hr : r.Orderly) (hc : r.Enrols c) :
    c.errorRoot = c.ancestry.findSome? ErrorKind.ofClassName? := by
  refine Class.errorRoot_eq fun l hl => ?_
  obtain ⟨front, back, hlevels⟩ := List.append_of_mem hl
  exact hr.kind ⟨l, back⟩ (hc.of_suffix ⟨front, hlevels.symm⟩)

/-! ### Building -/

namespace Draft

variable {d d' : Draft} {file : String} {entered : List ClassDecl}

/-- Every class of a draft is known under its name, and so are its ancestors. -/
def Orderly (d : Draft) : Prop :=
  ∀ name c, d.class? name = some c →
    c.name = name ∧ ∀ a : Class, a.levels <:+ c.levels → d.class? a.name = some a

theorem orderly_builtin {added : Bindings Entry} (hd : d.entries = builtinEntries ++ added)
    (hadded : ∀ e ∈ added, e.2.class? = none) : d.Orderly := by
  intro name c hc
  obtain ⟨k, rfl, rfl⟩ := exists_builtin_of_class? hd hadded hc
  refine ⟨rfl, fun a ha => ?_⟩
  obtain rfl | ⟨p, hparent, hsuffix⟩ := Class.suffix_levels_iff.mp ha
  · exact hc
  · obtain rfl : p = .builtin .general := by
      by_cases hk : k = .general
      · rw [hk, Class.parent?_builtin_general] at hparent
        cases hparent
      · rw [Class.parent?_builtin hk] at hparent
        exact (Option.some.inj hparent).symm
    obtain rfl | ⟨q, hq, -⟩ := Class.suffix_levels_iff.mp hsuffix
    · exact class?_builtin hd .general
    · cases hq

/-- A class that is entered is known under its name, and its ancestors have been entered before. -/
theorem Orderly.entersAll (h : d.Orderly) (henters : EntersAll file d entered d') :
    d'.Orderly := by
  induction henters with
  | nil d => exact h
  | @cons d d' decl rest ancestors hfree hprecedes hrest ih =>
      have hknown : ∀ {name c}, d.class? name = some c →
          (d.enter file decl ancestors).class? name = some c :=
        fun hc => (EntersAll.cons hfree hprecedes (.nil _)).class? hc
      refine ih fun name c hc => ?_
      obtain hc | ⟨rfl, rfl⟩ := class?_enter hc
      · obtain ⟨hname, hancestors⟩ := h name c hc
        exact ⟨hname, fun a ha => hknown (hancestors a ha)⟩
      · have hname : (Class.mk (d.level file decl).2 ancestors).name = decl.name :=
          level_name d file decl
        refine ⟨hname, fun a ha => ?_⟩
        rcases List.suffix_cons_iff.mp ha with heq | hsuffix
        · rw [Class.eq_of_levels (d := ⟨(d.level file decl).2, ancestors⟩) heq, hname]
          exact class?_enter_self hfree
        · cases hprecedes with
          | root hparent => cases List.suffix_nil.mp hsuffix
          | parent hparent hclass => exact hknown ((h _ _ hclass).2 a hsuffix)

end Draft

/-- A registry that has been built is in order. -/
theorem orderly_build {h h' : Heap} {file : String} {extensions : List Extension}
    {source : Source} (hbuild : build h file extensions source = .ok (h', r)) : r.Orderly := by
  have hdecls := separate_of_nodup (nodup_of_build hbuild)
  obtain ⟨d, hd, hdescends, -⟩ := descends_build hbuild
  obtain ⟨d₁, d₂, h₂, d₃, d₄, entered, h₁, h₂, h₃, henters, -, rfl⟩ := entersAll_build hbuild
  obtain ⟨added, hentries, -, hadded⟩ := ((Draft.appends_addExtensions h₁).trans
    (Draft.appends_addRecords h₂)).trans (Draft.appends_addProcedures h₃)
  have horderly := (Draft.orderly_builtin hentries hadded).entersAll henters
  have hlookup : ∀ {name c}, lookup? ⟨d₄.entries, (d₄.place file source.main).2, file⟩ name =
      some (.classDef c) ↔ d₄.class? name = some c := lookup?_eq_class_iff rfl
  have henrols : ∀ {name c}, d₄.class? name = some c →
      Enrols ⟨d₄.entries, (d₄.place file source.main).2, file⟩ c :=
    fun hc a ha => hlookup.mpr ((horderly _ _ hc).2 a ha)
  refine ⟨fun k => henrols (henters.class? (class?_builtin hentries k)),
    fun name c hc => (horderly name c (hlookup.mp hc)).1,
    fun name c hc => henrols (hlookup.mp hc), fun c hc => ?_⟩
  have hdeclared := hdescends.declared c.name c ((lookup?_eq_class_iff hd).mp hc.lookup?)
  exact (hdeclared c.own List.mem_cons_self).kind hdecls

end Registry

/-! ## The classes of a program -/

namespace Registry

variable {r : Registry} {c : Class}

/-- The code of a program, together with its classes: the built-in ones, those that are enrolled,
and the one that stands where there is no object. -/
def kin (r : Registry) : Repertoire :=
  { r.repertoire with
    classes := fun c => c = default ∨ (∃ k, c = .builtin k) ∨ r.Enrols c
    classes_builtin := fun k => Or.inr (Or.inl ⟨k, rfl⟩)
    classes_default := Or.inl rfl
    classes_parent? := by
      rintro c parent (rfl | ⟨k, rfl⟩ | hc) hparent
      · cases hparent
      · by_cases hk : k = .general
        · rw [hk, Class.parent?_builtin_general] at hparent
          cases hparent
        · rw [Class.parent?_builtin hk] at hparent
          exact Or.inr (Or.inl ⟨.general, (Option.some.inj hparent).symm⟩)
      · exact Or.inr (Or.inr (hc.of_suffix (Class.suffix_of_parent? hparent))) }

/-- What an orderly registry knows is the code and the classes of its program. -/
theorem Orderly.among_kin (hr : r.Orderly) : r.Among r.kin := by
  intro name v hv
  have hamong := r.among_repertoire name v hv
  cases v with
  | classDef c => exact ⟨hamong.levels, hamong.code, Or.inr (Or.inr (hr.enrols name c hv))⟩
  | procedure p => exact hamong
  | record ref => trivial
  | extension e => trivial
  | _ =>
      obtain ⟨e, -, he⟩ := Option.map_eq_some_iff.mp hv
      cases e <;> cases he

/-- A class of the program that has a built-in level is enrolled. -/
theorem Orderly.enrols_of_among (hr : r.Orderly) (hc : c.Among r.kin)
    (hroot : c.errorRoot ≠ none) : r.Enrols c := by
  obtain rfl | ⟨k, rfl⟩ | henrols := hc.known
  · exact absurd rfl hroot
  · exact hr.builtin k
  · exact henrols

end Registry

/-! ## Failures -/

/-- The class that a failure is of: that of the object that was thrown, or the one that the registry
knows under the name that the failure goes by. -/
def Heap.classOf (h : Heap) (registry : Registry) (f : Failure) : Class :=
  match f.payload with
  | some r => (h.object r).cls
  | none => (registry.class? f.className).getD default

/-- Nothing was thrown for a failure, and it goes by the name of a class of its kind that the
registry knows: a built-in one, or one that is declared right below a built-in one. -/
structure Failure.Native (registry : Registry) (f : Failure) : Prop where
  payload : f.payload = none
  known : ∃ c, registry.lookup? f.className = some (.classDef c) ∧ c.errorRoot = some f.kind ∧
    ∀ l ∈ c.ancestors, l.builtin.isSome = true

/-- What a failure says about its class is so. -/
structure Failure.Regular (registry : Registry) (h : Heap) (f : Failure) : Prop where
  className : f.className = (h.classOf registry f).name
  kind : (h.classOf registry f).errorRoot = some f.kind
  direct : f.payload = none → ∀ l ∈ (h.classOf registry f).ancestors, l.builtin.isSome = true

variable {registry : Registry} {h : Heap} {f g : Failure}

/-- A class without ancestors that a program declares has the names of the built-in class of its
kind in its line, and none besides its own. -/
theorem Registry.Orderly.mem_ancestry_of_direct (hr : registry.Orderly) {c : Class} {k : ErrorKind}
    (hc : registry.Enrols c) (hk : c.errorRoot = some k)
    (hdirect : ∀ l ∈ c.ancestors, l.builtin.isSome = true) {name : String}
    (hname : name ∈ c.ancestry) : name = c.name ∨ name ∈ (Class.builtin k).ancestry := by
  rw [Class.errorRoot, Class.levels, List.findSome?_cons] at hk
  cases hown : c.own.builtin with
  | some k' =>
      rw [hown] at hk
      obtain rfl := Option.some.inj hk
      rw [← hr.eq_builtin hc hown]
      exact Or.inr hname
  | none =>
      rw [Class.ancestry_eq, List.mem_cons] at hname
      refine hname.imp_right fun hname => ?_
      -- The first ancestor is built in, so it is the class of the kind.
      rcases hancestors : c.ancestors with _ | ⟨l, ls⟩
      · rw [hancestors] at hname
        contradiction
      · obtain ⟨k', hl⟩ := Option.isSome_iff_exists.mp
          (hdirect l (hancestors ▸ List.mem_cons_self))
        rw [hown, hancestors, List.findSome?_cons, hl] at hk
        obtain rfl := Option.some.inj hk
        have hparent : registry.Enrols ⟨l, ls⟩ :=
          hc.of_suffix ⟨[c.own], by rw [Class.levels, Class.levels, hancestors]; rfl⟩
        rw [← hr.eq_builtin hparent hl]
        rw [hancestors] at hname
        exact hname

theorem Failure.Plain.native (hf : f.Plain) (hr : registry.Orderly) : f.Native registry := by
  refine ⟨hf.payload, .builtin f.kind, ?_, rfl, fun l hl => ?_⟩
  · rw [hf.className]
    exact (hr.builtin f.kind).lookup?
  · rw [Class.builtin] at hl
    split at hl
    · contradiction
    · rw [List.mem_singleton.mp hl]
      rfl

theorem Failure.Native.regular (hf : f.Native registry) (hr : registry.Orderly) :
    f.Regular registry h := by
  obtain ⟨hpayload, c, hlookup, hkind, hdirect⟩ := hf
  have hclass : h.classOf registry f = c := by
    rw [Heap.classOf, hpayload, Registry.class?_eq_some_iff.mpr hlookup]
    rfl
  exact ⟨by rw [hclass, hr.named _ _ hlookup], by rw [hclass, hkind], fun _ => by rwa [hclass]⟩

/-- A failure that nothing was thrown for is of a class that the registry knows. -/
theorem Failure.Regular.class? (hf : f.Regular registry h) (hpayload : f.payload = none) :
    registry.class? f.className = some (h.classOf registry f) := by
  have hkind := hf.kind
  rw [Heap.classOf, hpayload] at hkind ⊢
  cases hclass : registry.class? f.className with
  | some c => rfl
  | none =>
      rw [hclass] at hkind
      contradiction

theorem Failure.Regular.errorClass? (hf : f.Regular registry h) (hpayload : f.payload = none) :
    registry.errorClass? f = some (h.classOf registry f) := by
  rw [Registry.errorClass?, hf.class? hpayload]
  rfl

/-- Handlers deal with a failure exactly if they are for a class of its line. -/
theorem Failure.Regular.catches_iff (hf : f.Regular registry h) (hr : registry.Orderly)
    (hclass : registry.Enrols (h.classOf registry f)) (handler : String) :
    h.catches handler f = true ↔ handler ∈ (h.classOf registry f).ancestry := by
  have hbuiltin : ∀ name ∈ (Class.builtin f.kind).ancestry,
      name ∈ (h.classOf registry f).ancestry :=
    fun name => Class.mem_ancestry_of_suffix (hr.suffix_of_errorRoot hclass hf.kind)
  have hname : f.className ∈ (h.classOf registry f).ancestry := by
    rw [hf.className, Class.ancestry_eq]
    exact List.mem_cons_self
  simp only [Heap.catches, Bool.or_eq_true, decide_eq_true_eq]
  constructor
  · rintro (((rfl | rfl) | hkind) | hisA)
    · exact hname
    · exact hbuiltin _ (Class.mem_ancestry_builtin.mpr (Or.inr rfl))
    · rw [← ErrorKind.className_of_ofClassName? hkind]
      exact hbuiltin _ (Class.mem_ancestry_builtin.mpr (Or.inl rfl))
    · unfold Heap.classOf
      cases hpayload : f.payload with
      | some r =>
          rw [hpayload] at hisA
          exact List.contains_iff_mem.mp hisA
      | none =>
          rw [hpayload] at hisA
          cases hisA
  · intro hmem
    cases hpayload : f.payload with
    | some r =>
        rw [Heap.classOf, hpayload] at hmem
        exact Or.inr (List.contains_iff_mem.mpr hmem)
    | none =>
        rcases hr.mem_ancestry_of_direct hclass hf.kind (hf.direct hpayload) hmem with hown | hmem
        · exact Or.inl (Or.inl (Or.inl (hown.trans hf.className.symm)))
        · rcases Class.mem_ancestry_builtin.mp hmem with rfl | rfl
          · exact Or.inl (Or.inr (ErrorKind.ofClassName?_className _))
          · exact Or.inl (Or.inl (Or.inr rfl))

end Statute
