import Mathlib.Data.List.Nodup
import Statute.Proofs.Expression.Compilation
import Statute.Registry

/-!
# Building a registry

How a registry comes about. Names are given out one after the other, and what has been given out
stays. Classes are entered parents first: `Adds` says what becomes of a class that is asked for,
without the fuel, and `EntersAll` that entering is all that happens to a draft on the way. Which
classes are entered can be read off the waiting ones: they are those that do not wait any more.
-/

namespace Statute

namespace Bindings

variable {α : Type} {bs cs : Bindings α} {name : String} {a : α}

theorem get?_append : get? (bs ++ cs) name = (get? bs name).or (get? cs name) :=
  List.lookup_append

theorem contains_iff : bs.contains name = true ↔ name ∈ bs.names := by
  induction bs with
  | nil => simp [contains, names]
  | cons b bs ih =>
      obtain ⟨n, v⟩ := b
      rw [contains, get?_cons, names, List.map_cons, List.mem_cons]
      by_cases h : name = n
      · simp [h]
      · rw [if_neg h, or_iff_right h]
        exact ih

end Bindings

namespace Registry.Draft

variable {d d' : Draft} {file name : String} {decl : ClassDecl} {waiting waiting' : List ClassDecl}
  {below : List String} {ancestors : List Level} {c : Class} {f : Failure}

/-! ### Placing code -/

theorem methods_entries (d : Draft) (file cls : String) (decls : List ProcedureDecl)
    (done : Bindings Procedure) : (d.methods file cls decls done).1.entries = d.entries := by
  induction decls generalizing d done with
  | nil => rfl
  | cons decl decls ih =>
      rw [methods]
      exact ih _ _

theorem level_entries (d : Draft) (file : String) (decl : ClassDecl) :
    (d.level file decl).1.entries = d.entries := by
  rw [← methods_entries d file decl.name decl.methods []]
  obtain ⟨name, parent, methods, ctor⟩ := decl
  cases ctor <;> rfl

theorem level_name (d : Draft) (file : String) (decl : ClassDecl) :
    (d.level file decl).2.name = decl.name := by
  obtain ⟨name, parent, methods, ctor⟩ := decl
  cases ctor <;> rfl

theorem level_builtin (d : Draft) (file : String) (decl : ClassDecl) :
    (d.level file decl).2.builtin = none := by
  obtain ⟨name, parent, methods, ctor⟩ := decl
  cases ctor <;> rfl

theorem class?_eq_some_iff :
    d.class? name = some c ↔ d.entries.get? name = some (.classDef c) := by
  unfold class?
  cases d.entries.get? name with
  | none => simp
  | some e => cases e <;> simp [Entry.class?]

theorem contains_of_class? (h : d.class? name = some c) : d.entries.contains name = true := by
  rw [Bindings.contains, class?_eq_some_iff.mp h, Option.isSome_some]

/-! ### Entering a class -/

def enter (file : String) (decl : ClassDecl) (ancestors : List Level) (d : Draft) : Draft :=
  { (d.level file decl).1 with
    entries := d.entries ++ [(decl.name, .classDef ⟨(d.level file decl).2, ancestors⟩)] }

/-- The levels that a class has above its own, if its parent is there already. -/
inductive Precedes (d : Draft) (decl : ClassDecl) : List Level → Prop
  | root (hparent : decl.parent = none) : Precedes d decl []
  | parent {parent : String} {c : Class} (hparent : decl.parent = some parent)
      (hclass : d.class? parent = some c) : Precedes d decl c.levels

/-- Classes are entered one after the other, each after its parent and under a free name. -/
inductive EntersAll (file : String) : Draft → List ClassDecl → Draft → Prop
  | nil (d : Draft) : EntersAll file d [] d
  | cons {d d' : Draft} {decl : ClassDecl} {decls : List ClassDecl} {ancestors : List Level}
      (hfree : d.entries.contains decl.name = false) (hprecedes : d.Precedes decl ancestors)
      (hrest : EntersAll file (d.enter file decl ancestors) decls d') :
      EntersAll file d (decl :: decls) d'

theorem EntersAll.concat {decls : List ClassDecl} (h : EntersAll file d decls d')
    (hfree : d'.entries.contains decl.name = false) (hprecedes : d'.Precedes decl ancestors) :
    EntersAll file d (decls ++ [decl]) (d'.enter file decl ancestors) := by
  induction h with
  | nil d => exact .cons hfree hprecedes (.nil _)
  | cons hfree' hprecedes' _ ih => exact .cons hfree' hprecedes' (ih hfree hprecedes)

theorem EntersAll.append {d'' : Draft} {decls decls' : List ClassDecl}
    (h : EntersAll file d decls d') (h' : EntersAll file d' decls' d'') :
    EntersAll file d (decls ++ decls') d'' := by
  induction h with
  | nil d => exact h'
  | cons hfree hprecedes _ ih => exact .cons hfree hprecedes (ih h')

theorem EntersAll.names {decls : List ClassDecl} (h : EntersAll file d decls d') :
    d'.entries.names = d.entries.names ++ decls.map (·.name) := by
  induction h with
  | nil d => simp
  | cons _ _ _ ih =>
      rw [ih]
      simp [enter, Bindings.names]

/-- What a draft knows it goes on knowing. -/
theorem EntersAll.get? {decls : List ClassDecl} {e : Entry} (h : EntersAll file d decls d')
    (hget : d.entries.get? name = some e) : d'.entries.get? name = some e := by
  induction h with
  | nil d => exact hget
  | cons _ _ _ ih =>
      refine ih ?_
      rw [enter, Bindings.get?_append, hget, Option.some_or]

theorem EntersAll.class? {decls : List ClassDecl} (h : EntersAll file d decls d')
    (hclass : d.class? name = some c) : d'.class? name = some c :=
  class?_eq_some_iff.mpr (h.get? (class?_eq_some_iff.mp hclass))

theorem class?_enter_self (hfree : d.entries.contains decl.name = false) :
    (d.enter file decl ancestors).class? decl.name = some ⟨(d.level file decl).2, ancestors⟩ := by
  rw [Bindings.contains, Option.isSome_eq_false_iff, Option.isNone_iff_eq_none] at hfree
  rw [class?_eq_some_iff, enter, Bindings.get?_append, hfree, Option.none_or, Bindings.get?_cons,
    if_pos rfl]

theorem EntersAll.class?_of_mem {decls : List ClassDecl} (h : EntersAll file d decls d')
    (hdecl : decl ∈ decls) : (d'.class? decl.name).isSome := by
  induction h with
  | nil d => cases hdecl
  | cons hfree hprecedes hrest ih =>
      rcases List.mem_cons.mp hdecl with rfl | hdecl
      · rw [hrest.class? (class?_enter_self hfree), Option.isSome_some]
      · exact ih hdecl

/-! ### What becomes of a class that is asked for -/

def others (waiting : List ClassDecl) (name : String) : List ClassDecl :=
  waiting.filter fun c => c.name ≠ name

/-- What becomes of a class that is asked for: it is there already, or it is entered after its
parent, or this fails because of its parent. -/
inductive Adds (file : String) (d : Draft) : List ClassDecl → List String → String →
    Except Failure (Draft × List ClassDecl × Class) → Prop
  | known {waiting : List ClassDecl} {below : List String} {name : String} {c : Class}
      (hclass : d.class? name = some c) : Adds file d waiting below name (.ok (d, waiting, c))
  | root {waiting : List ClassDecl} {below : List String} {decl : ClassDecl}
      (hnew : d.class? decl.name = none) (hdecl : decl ∈ waiting) (hparent : decl.parent = none) :
      Adds file d waiting below decl.name
        (.ok (d.enter file decl [], others waiting decl.name, ⟨(d.level file decl).2, []⟩))
  | child {waiting waiting' : List ClassDecl} {below : List String} {decl : ClassDecl}
      {parent : String} {d' : Draft} {p : Class} (hnew : d.class? decl.name = none)
      (hdecl : decl ∈ waiting) (hparent : decl.parent = some parent)
      (hopen : parent ∉ decl.name :: below)
      (hadds : Adds file d (others waiting decl.name) (decl.name :: below) parent
        (.ok (d', waiting', p))) :
      Adds file d waiting below decl.name
        (.ok (d'.enter file decl p.levels, waiting', ⟨(d'.level file decl).2, p.levels⟩))
  | fails {waiting : List ClassDecl} {below : List String} {decl : ClassDecl} {parent : String}
      {f : Failure} (hnew : d.class? decl.name = none) (hdecl : decl ∈ waiting)
      (hparent : decl.parent = some parent) (hopen : parent ∉ decl.name :: below)
      (hadds : Adds file d (others waiting decl.name) (decl.name :: below) parent (.error f)) :
      Adds file d waiting below decl.name (.error f)
  | cycle {waiting : List ClassDecl} {below : List String} {decl : ClassDecl} {parent : String}
      (hnew : d.class? decl.name = none) (hdecl : decl ∈ waiting)
      (hparent : decl.parent = some parent) (hclosed : parent ∈ decl.name :: below) :
      Adds file d waiting below decl.name (.error (Draft.cycle parent))
  | unknown {waiting : List ClassDecl} {below : List String} {decl : ClassDecl} {parent : String}
      (hnew : d.class? decl.name = none) (hdecl : decl ∈ waiting)
      (hparent : decl.parent = some parent) (hopen : parent ∉ decl.name :: below)
      (hwaiting : ∀ c ∈ waiting, c.name ≠ parent) (hclass : d.class? parent = none) :
      Adds file d waiting below decl.name
        (.error (d.unknownParent (others waiting decl.name) decl.name parent))

theorem length_others_lt (h : decl ∈ waiting) :
    (others waiting decl.name).length < waiting.length :=
  List.length_filter_lt_length_iff_exists.mpr ⟨decl, h, by simp⟩

/-- What is asked of the parent, for a class that waits. -/
theorem addClass_waiting {fuel : Nat} (hclass : d.class? decl.name = none)
    (hfind : waiting.find? (fun c => c.name = decl.name) = some decl) :
    addClass file (fuel + 1) d waiting below decl.name =
      match decl.parent with
      | none => .ok (d.enter file decl [], others waiting decl.name, ⟨(d.level file decl).2, []⟩)
      | some parent =>
          if (decl.name :: below).contains parent then .error (cycle parent)
          else if ((others waiting decl.name).any fun c => c.name = parent) ||
              (d.class? parent).isSome then
            match addClass file fuel d (others waiting decl.name) (decl.name :: below) parent with
            | .ok (d, waiting, p) =>
                .ok (d.enter file decl p.levels, waiting, ⟨(d.level file decl).2, p.levels⟩)
            | .error f => .error f
          else .error (d.unknownParent (others waiting decl.name) decl.name parent) := by
  have henter : ∀ (d : Draft) (ancestors : List Level),
      ({ (d.level file decl).1 with
        entries := (d.level file decl).1.entries ++
          [(decl.name, .classDef ⟨(d.level file decl).2, ancestors⟩)] } : Draft) =
        d.enter file decl ancestors := fun d ancestors => by rw [enter, level_entries]
  rw [addClass, hclass, hfind]
  simp only [henter]
  rfl

/-- With fuel for all waiting classes, a class that is there or waits is added as said. -/
theorem adds_addClass (file : String) (below : List String) {fuel : Nat}
    (hfuel : waiting.length < fuel)
    (hname : (∃ c ∈ waiting, c.name = name) ∨ (d.class? name).isSome) :
    Adds file d waiting below name (addClass file fuel d waiting below name) := by
  induction fuel generalizing waiting below name with
  | zero => omega
  | succ fuel ih =>
      cases hclass : d.class? name with
      | some c =>
          rw [addClass, hclass]
          exact .known hclass
      | none =>
          obtain ⟨c, hc, hcname⟩ := hname.resolve_right (by simp [hclass])
          obtain ⟨decl, hfind⟩ : ∃ decl, waiting.find? (fun c => c.name = name) = some decl :=
            Option.isSome_iff_exists.mp (List.find?_isSome.mpr ⟨c, hc, by simpa using hcname⟩)
          have hdecl : decl ∈ waiting := List.mem_of_find?_eq_some hfind
          obtain rfl : decl.name = name := by simpa using List.find?_some hfind
          rw [addClass_waiting hclass hfind]
          cases hparent : decl.parent with
          | none => exact .root hclass hdecl hparent
          | some parent =>
              dsimp only
              split
              · next hclosed =>
                  exact .cycle hclass hdecl hparent (List.contains_iff_mem.mp hclosed)
              · next hopen =>
                  have hopen : parent ∉ decl.name :: below := fun h =>
                    hopen (List.contains_iff_mem.mpr h)
                  split
                  · next hknown =>
                      have hless : (others waiting decl.name).length < fuel :=
                        Nat.lt_of_lt_of_le (length_others_lt hdecl) (Nat.le_of_lt_succ hfuel)
                      have hadds := ih (decl.name :: below) hless (by simpa using hknown)
                      split
                      · next heq => exact .child hclass hdecl hparent hopen (heq ▸ hadds)
                      · next heq => exact .fails hclass hdecl hparent hopen (heq ▸ hadds)
                  · next hunknown =>
                      rw [Bool.or_eq_true, not_or] at hunknown
                      refine .unknown hclass hdecl hparent hopen (fun c hc hcname => ?_)
                        (Option.not_isSome_iff_eq_none.mp hunknown.2)
                      -- such a class is not the one that has just been taken off
                      have hother : c ∈ others waiting decl.name := by
                        refine List.mem_filter.mpr ⟨hc, ?_⟩
                        rw [hcname]
                        simpa using List.ne_of_not_mem_cons hopen
                      exact hunknown.1 (List.any_eq_true.mpr ⟨c, hother, by simpa using hcname⟩)

/-! ### What is entered on the way -/

theorem others_of_not_mem (h : name ∉ waiting.map (·.name)) : others waiting name = waiting := by
  refine List.filter_eq_self.mpr fun c hc => ?_
  have hne : c.name ≠ name := fun heq => h (heq ▸ List.mem_map_of_mem hc)
  simpa using hne

theorem perm_others (hnames : (waiting.map (·.name)).Nodup) (hdecl : decl ∈ waiting) :
    waiting.Perm (decl :: others waiting decl.name) := by
  induction waiting with
  | nil => cases hdecl
  | cons c rest ih =>
      obtain ⟨hc, hrest⟩ := List.nodup_cons.mp hnames
      rcases List.mem_cons.mp hdecl with rfl | hdecl
      · rw [others, List.filter_cons_of_neg (by simp)]
        exact .cons _ (List.Perm.of_eq (others_of_not_mem hc).symm)
      · have hne : c.name ≠ decl.name := fun heq =>
          hc (List.mem_map.mpr ⟨decl, hdecl, heq.symm⟩)
        rw [others, List.filter_cons_of_pos (by simpa using hne)]
        exact ((ih hrest hdecl).cons c).trans (.swap _ _ _)

/-- The waiting classes have names of their own, and these are free. -/
structure Awaits (d : Draft) (waiting : List ClassDecl) : Prop where
  names : (waiting.map (·.name)).Nodup
  free : ∀ c ∈ waiting, d.entries.contains c.name = false

theorem Awaits.others (h : d.Awaits waiting) (name : String) : d.Awaits (others waiting name) :=
  ⟨(List.filter_sublist.map _).nodup h.names, fun c hc => h.free c (List.mem_of_mem_filter hc)⟩

/-- What still waits when others have been entered. -/
theorem Awaits.entersAll {entered : List ClassDecl} (h : d.Awaits waiting)
    (henters : EntersAll file d entered d') (hperm : waiting.Perm (entered ++ waiting')) :
    d'.Awaits waiting' := by
  have hnames : (entered.map (·.name) ++ waiting'.map (·.name)).Nodup := by
    rw [← List.map_append]
    exact (hperm.map _).nodup_iff.mp h.names
  refine ⟨(List.nodup_append.mp hnames).2.1, fun c hc => ?_⟩
  rw [Bool.eq_false_iff, ne_eq, Bindings.contains_iff, henters.names, List.mem_append, not_or]
  refine ⟨?_, fun hmem => (List.nodup_append.mp hnames).2.2 _ hmem _ (List.mem_map_of_mem hc) rfl⟩
  have hfree := h.free c (hperm.mem_iff.mpr (List.mem_append_right _ hc))
  rw [← Bindings.contains_iff, hfree]
  decide

/-- A class that is asked for and found: the classes that do not wait any more have been entered. -/
theorem Adds.entersAll {r : Except Failure (Draft × List ClassDecl × Class)}
    (h : Adds file d waiting below name r) (hawaits : d.Awaits waiting) :
    ∀ d' waiting' c, r = .ok (d', waiting', c) → ∃ entered, EntersAll file d entered d' ∧
      waiting.Perm (entered ++ waiting') ∧ d'.class? name = some c := by
  induction h with
  | known hclass =>
      rintro _ _ _ ⟨⟩
      exact ⟨[], .nil _, .refl _, hclass⟩
  | root hnew hdecl hparent =>
      rintro _ _ _ ⟨⟩
      have hfree := hawaits.free _ hdecl
      exact ⟨[_], .cons hfree (.root hparent) (.nil _), perm_others hawaits.names hdecl,
        class?_enter_self hfree⟩
  | @child waiting waiting' below decl parent d' p hnew hdecl hparent hopen hadds ih =>
      rintro _ _ _ ⟨⟩
      obtain ⟨entered, henters, hperm, hclass⟩ := ih (hawaits.others _) _ _ _ rfl
      have hwaiting : waiting.Perm (entered ++ [decl] ++ waiting') := by
        rw [List.append_assoc]
        exact ((perm_others hawaits.names hdecl).trans (hperm.cons decl)).trans
          List.perm_middle.symm
      have hfree := (hawaits.entersAll henters
        (by simpa [List.append_assoc] using hwaiting)).free decl List.mem_cons_self
      exact ⟨entered ++ [decl], henters.concat hfree (.parent hparent hclass), hwaiting,
        class?_enter_self hfree⟩
  | fails => exact nofun
  | cycle => exact nofun
  | unknown => exact nofun

def Has (d : Draft) (waiting : List ClassDecl) (name : String) : Prop :=
  (∃ c ∈ waiting, c.name = name) ∨ (d.class? name).isSome

theorem Has.entersAll {entered : List ClassDecl} (h : d.Has waiting name)
    (henters : EntersAll file d entered d') (hperm : waiting.Perm (entered ++ waiting')) :
    d'.Has waiting' name := by
  rcases h with ⟨c, hc, rfl⟩ | hknown
  · rcases List.mem_append.mp (hperm.mem_iff.mp hc) with hc | hc
    · exact Or.inr (henters.class?_of_mem hc)
    · exact Or.inl ⟨c, hc, rfl⟩
  · obtain ⟨c, hc⟩ := Option.isSome_iff_exists.mp hknown
    exact Or.inr (Option.isSome_iff_exists.mpr ⟨c, henters.class? hc⟩)

/-- A class is asked for with all that wait, and it is found. -/
theorem Awaits.addClass (hawaits : d.Awaits waiting) (hname : d.Has waiting name)
    (hadd : addClass file (waiting.length + 1) d waiting below name = .ok (d', waiting', c)) :
    ∃ entered, EntersAll file d entered d' ∧ waiting.Perm (entered ++ waiting') ∧
      d'.class? name = some c ∧ d'.Awaits waiting' := by
  have hadds := adds_addClass file below (Nat.lt_succ_self waiting.length) hname
  rw [hadd] at hadds
  obtain ⟨entered, henters, hperm, hclass⟩ := hadds.entersAll hawaits _ _ _ rfl
  exact ⟨entered, henters, hperm, hclass, hawaits.entersAll henters hperm⟩

/-- All classes of a list of names are asked for, and none of them waits any more. -/
theorem entersAll_addClasses {names : List String} (hawaits : d.Awaits waiting)
    (hnames : ∀ n ∈ names, d.Has waiting n) (hadd : d.addClasses file waiting names = .ok d') :
    ∃ entered waiting', EntersAll file d entered d' ∧ waiting.Perm (entered ++ waiting') ∧
      ∀ c ∈ waiting', c.name ∉ names := by
  induction names generalizing d waiting with
  | nil =>
      obtain rfl := Except.ok.inj hadd
      exact ⟨[], waiting, .nil _, .refl _, by simp⟩
  | cons n names ih =>
      obtain ⟨⟨d₁, waiting₁, c⟩, hfirst, hrest⟩ := exists_of_bind_eq_ok hadd
      obtain ⟨hn, hnames⟩ := List.forall_mem_cons.mp hnames
      obtain ⟨entered₁, henters₁, hperm₁, hclass, hawaits₁⟩ := hawaits.addClass hn hfirst
      have hnames₁ : ∀ n ∈ names, d₁.Has waiting₁ n := fun n hn =>
        (hnames n hn).entersAll henters₁ hperm₁
      obtain ⟨entered₂, waiting₂, henters₂, hperm₂, hgone⟩ := ih hawaits₁ hnames₁ hrest
      refine ⟨entered₁ ++ entered₂, waiting₂, henters₁.append henters₂, ?_, fun c' hc' => ?_⟩
      · rw [List.append_assoc]
        exact hperm₁.trans (hperm₂.append_left entered₁)
      · -- the class that was asked for first is there, so its name is not free any more
        rw [List.mem_cons, not_or]
        refine ⟨?_, hgone c' hc'⟩
        rintro rfl
        have hfree := hawaits₁.free c' (hperm₂.mem_iff.mpr (List.mem_append_right _ hc'))
        rw [contains_of_class? hclass] at hfree
        cases hfree

theorem awaits_of_checkClassNames {seen : List String}
    (h : d.checkClassNames seen waiting = .ok ()) :
    d.Awaits waiting ∧ ∀ c ∈ waiting, c.name ∉ seen := by
  induction waiting generalizing seen with
  | nil => exact ⟨⟨List.nodup_nil, by simp⟩, by simp⟩
  | cons c rest ih =>
      rw [checkClassNames] at h
      split at h
      · cases h
      · next hnew =>
          obtain ⟨hawaits, hseen⟩ := ih h
          simp only [Bool.or_eq_true, not_or, Bool.not_eq_true] at hnew
          refine ⟨⟨?_, List.forall_mem_cons.mpr ⟨hnew.1, hawaits.free⟩⟩,
            List.forall_mem_cons.mpr ⟨by simpa using hnew.2, fun c' hc' =>
              (List.not_mem_of_not_mem_cons (hseen c' hc'))⟩⟩
          rw [List.map_cons, List.nodup_cons, List.mem_map]
          refine ⟨?_, hawaits.names⟩
          rintro ⟨c', hc', heq⟩
          exact hseen c' hc' (heq ▸ List.mem_cons_self)

/-! ### Names of other things -/

theorem insert_eq_ok {e : Entry} (h : d.insert name e = .ok d') :
    d.entries.contains name = false ∧ d'.entries = d.entries ++ [(name, e)] := by
  unfold insert at h
  split at h
  · cases h
  · next hfree =>
      obtain rfl := Except.ok.inj h
      exact ⟨Bool.eq_false_iff.mpr hfree, rfl⟩

def Appends (d : Draft) (names : List String) (d' : Draft) : Prop :=
  ∃ added : Bindings Entry, d'.entries = d.entries ++ added ∧ added.names = names ∧
    ∀ e ∈ added, e.2.class? = none

theorem Appends.refl (d : Draft) : d.Appends [] d :=
  ⟨[], (List.append_nil _).symm, rfl, by simp⟩

theorem Appends.trans {d'' : Draft} {names names' : List String} (h : d.Appends names d')
    (h' : d'.Appends names' d'') : d.Appends (names ++ names') d'' := by
  obtain ⟨added, hadded, rfl, hclass⟩ := h
  obtain ⟨added', hadded', rfl, hclass'⟩ := h'
  refine ⟨added ++ added', by rw [hadded', hadded, List.append_assoc], List.map_append, ?_⟩
  exact List.forall_mem_append.mpr ⟨hclass, hclass'⟩

theorem Appends.of_insert {e : Entry} (h : d.insert name e = .ok d') (he : e.class? = none) :
    d.Appends [name] d' :=
  ⟨[(name, e)], (insert_eq_ok h).2, rfl, by simpa using he⟩

theorem appends_addExtensions {es : List Extension} (h : d.addExtensions es = .ok d') :
    d.Appends (es.map (·.name)) d' := by
  induction es generalizing d with
  | nil =>
      obtain rfl := Except.ok.inj h
      exact .refl _
  | cons e es ih =>
      obtain ⟨d₁, hinsert, hrest⟩ := exists_of_bind_eq_ok h
      exact (Appends.of_insert hinsert rfl).trans (ih hrest)

theorem appends_addRecords {heap heap' : Heap} {decls : List RecordDecl}
    (h : d.addRecords heap decls = .ok (d', heap')) : d.Appends (decls.map (·.name)) d' := by
  induction decls generalizing d heap with
  | nil =>
      obtain ⟨rfl, -⟩ := Prod.mk.inj (Except.ok.inj h)
      exact .refl _
  | cons decl decls ih =>
      obtain ⟨d₁, hinsert, hrest⟩ := exists_of_bind_eq_ok h
      exact (Appends.of_insert hinsert rfl).trans (ih hrest)

theorem appends_addProcedures {decls : List ProcedureDecl}
    (h : d.addProcedures file decls = .ok d') : d.Appends (decls.map (·.name)) d' := by
  induction decls generalizing d with
  | nil =>
      obtain rfl := Except.ok.inj h
      exact .refl _
  | cons decl decls ih =>
      obtain ⟨d₁, hinsert, hrest⟩ := exists_of_bind_eq_ok h
      -- placing the procedure has only taken locks
      obtain ⟨added, hadded, hnames, hclass⟩ := Appends.of_insert hinsert rfl
      have hfirst : d.Appends [decl.name] d₁ := ⟨added, hadded, hnames, hclass⟩
      exact hfirst.trans (ih hrest)

end Registry.Draft

namespace Registry

/-- A registry that has been built: names were given out to extensions, records and procedures, and
then all classes were entered, in some order. -/
theorem entersAll_build {h h' : Heap} {file : String} {extensions : List Extension}
    {source : Source} {r : Registry} (hbuild : build h file extensions source = .ok (h', r)) :
    ∃ d₁ d₂ h₂ d₃ d₄ entered,
      Draft.addExtensions ⟨builtinEntries, h.locks.size⟩
          (Primitive.all.map Primitive.toExtension ++ extensions) = .ok d₁ ∧
        d₁.addRecords h source.records = .ok (d₂, h₂) ∧
        d₂.addProcedures file source.procedures = .ok d₃ ∧
        Draft.EntersAll file d₃ entered d₄ ∧ entered.Perm source.classes ∧
        r = ⟨d₄.entries, (d₄.place file source.main).2, file⟩ := by
  obtain ⟨d₁, h₁, hbuild⟩ := exists_of_bind_eq_ok hbuild
  obtain ⟨⟨d₂, heap₂⟩, h₂, hbuild⟩ := exists_of_bind_eq_ok hbuild
  obtain ⟨d₃, h₃, hbuild⟩ := exists_of_bind_eq_ok hbuild
  obtain ⟨⟨⟩, hcheck, hbuild⟩ := exists_of_bind_eq_ok hbuild
  obtain ⟨d₄, h₄, hbuild⟩ := exists_of_bind_eq_ok hbuild
  obtain ⟨-, rfl⟩ := Prod.mk.inj (Except.ok.inj hbuild)
  obtain ⟨hawaits, -⟩ := Draft.awaits_of_checkClassNames hcheck
  obtain ⟨entered, waiting, henters, hperm, hgone⟩ := Draft.entersAll_addClasses hawaits
    (fun n hn => Or.inl (by simpa using hn)) h₄
  have hnone : waiting = [] := List.eq_nil_iff_forall_not_mem.mpr fun c hc => by
    refine hgone c hc (Text.mem_sorted.mpr (List.mem_map_of_mem ?_))
    exact hperm.mem_iff.mpr (List.mem_append_right _ hc)
  rw [hnone, List.append_nil] at hperm
  exact ⟨d₁, d₂, heap₂, d₃, d₄, entered, h₁, h₂, h₃, henters, hperm.symm, rfl⟩

end Registry

end Statute
