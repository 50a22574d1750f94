import Statute.Proofs.Machine.Surroundings

/-!
# Machines among others

A machine does not have the world to itself. Between two of its steps others may change whatever can
be seen of the world: the global scope, the objects with their fields, the records, the locks and
the tasks. They have scopes of their own, and leave those of the machine alone.

What others do is given by what the world looks like afterwards. Amid surroundings they change the
surroundings, and what is left without them is the same world, made to look so.
-/

namespace Statute

/-- What can be seen of a task: everything but the machine that works at it. -/
def Task.visible (t : Task) : Task :=
  { t with machine := none }

theorem Task.eq_of_visible {t t' : Task} (h : t'.visible = t.visible) :
    t' = { t with machine := t'.machine } := by
  obtain ⟨label, machine, done, waited, outcome⟩ := t
  obtain ⟨label', machine', done', waited', outcome'⟩ := t'
  cases h
  rfl

namespace World

/-- Two worlds agree on what anyone can see: the global scope, the objects with the boxes of their
fields, the records, the locks, the tasks and whether tasks can be scheduled. -/
structure Agrees (w w' : World) : Prop where
  globals : ∃ scope, w.heap.scopes[0]? = some scope ∧ w'.heap.scopes[0]? = some scope
  boxes : w.heap.boxes = w'.heap.boxes
  objects : w.heap.objects = w'.heap.objects
  records : w.heap.records = w'.heap.records
  locks : w.heap.locks = w'.heap.locks
  tasks : w.tasks.map Task.visible = w'.tasks.map Task.visible
  closed : w.pool.closed = w'.pool.closed

/-- While a machine rests others turn the world `w` into `w'`, which looks like `v`, and print the
lines of `v`. They leave the scopes in `held` alone. -/
structure Meanwhile (w : World) (held : List ScopeRef) (v w' : World) : Prop where
  seen : w'.Agrees v
  printed : w'.output = w.output ++ v.output
  kept : ∀ r ∈ held, 0 < r → w'.heap.scope r = w.heap.scope r
  size_le : w.heap.scopes.size ≤ w'.heap.scopes.size

def locals (w : World) : List Scope :=
  w.heap.scopes.toList.tail

/-- The world made to look like `v`, with its own scopes. -/
def madeLike (w v : World) : World :=
  { v with
    heap := { v.heap with scopes := (v.heap.scopes.toList.take 1 ++ w.locals).toArray }
    output := w.output ++ v.output }

def withoutLocals (w : World) : World :=
  { w with heap := { w.heap with scopes := (w.heap.scopes.toList.take 1).toArray } }

/-- What is around those that see the world but neither the scopes at some places nor the lines
printed before. -/
def around (w : World) (places : List (Option Scope)) (lines : Array String) : Surroundings :=
  ⟨places, fun t => (w.task t).machine, w.pool, lines⟩

variable {v w w' : World} {e : Surroundings} {m : Machine} {held : List ScopeRef}
  {places : List (Option Scope)} {lines : Array String}

theorem Agrees.symm (h : w.Agrees w') : w'.Agrees w := by
  obtain ⟨scope, hscope, hscope'⟩ := h.globals
  exact ⟨⟨scope, hscope', hscope⟩, h.boxes.symm, h.objects.symm, h.records.symm, h.locks.symm,
    h.tasks.symm, h.closed.symm⟩

theorem Agrees.trans (h : w.Agrees v) (h' : v.Agrees w') : w.Agrees w' := by
  obtain ⟨scope, hscope, hseen⟩ := h.globals
  obtain ⟨scope', hseen', hscope'⟩ := h'.globals
  rw [hseen] at hseen'
  cases hseen'
  exact ⟨⟨scope, hscope, hscope'⟩, h.boxes.trans h'.boxes, h.objects.trans h'.objects,
    h.records.trans h'.records, h.locks.trans h'.locks, h.tasks.trans h'.tasks,
    h.closed.trans h'.closed⟩

theorem Agrees.size_pos (h : w.Agrees w') : 0 < w.heap.scopes.size := by
  obtain ⟨scope, hscope, -⟩ := h.globals
  exact (Array.getElem?_eq_some_iff.mp hscope).1

theorem Agrees.local?_zero (h : w.Agrees w') (name : String) :
    w.heap.local? 0 name = w'.heap.local? 0 name := by
  obtain ⟨scope, hscope, hscope'⟩ := h.globals
  simp only [Heap.local?, Heap.scope, Array.getD_eq_getD_getElem?, hscope, hscope']

/-! ## The global scope and the others -/

theorem toList_eq_of_getElem? {scope : Scope} (h : w.heap.scopes[0]? = some scope) :
    w.heap.scopes.toList = scope :: w.locals := by
  rw [← Array.getElem?_toList] at h
  unfold locals
  cases hscopes : w.heap.scopes.toList with
  | nil => simp [hscopes] at h
  | cons globals rest => simpa [hscopes] using h

theorem length_locals (w : World) : w.locals.length = w.heap.scopes.size - 1 := by
  simp [locals]

theorem getElem?_locals (w : World) (r : Nat) : w.locals[r]? = w.heap.scopes[r + 1]? := by
  simp [locals]

theorem exists_globals (h : 0 < w.heap.scopes.size) : ∃ scope, w.heap.scopes[0]? = some scope :=
  ⟨_, Array.getElem?_eq_getElem h⟩

/-- A world that agrees with another one is that one amid surroundings, if its scopes are. -/
theorem eq_amid (hagrees : w'.Agrees w) (hlocals : Scope.fill places w.locals = w'.locals)
    (houtput : w'.output = lines ++ w.output) : w' = w.amid (w'.around places lines) := by
  obtain ⟨scope, hscope', hscope⟩ := hagrees.globals
  have hscopes : w'.heap.scopes = (Scope.amid places w.heap.scopes.toList).toArray := by
    apply Array.ext'
    rw [toList_eq_of_getElem? hscope', toList_eq_of_getElem? hscope, Scope.amid, hlocals]
  have htasks : w'.tasks =
      w.tasks.mapIdx fun t task => { task with machine := (w'.task t).machine } := by
    apply Array.ext_getElem?
    intro t
    have ht := congrArg (fun tasks => tasks[t]?) hagrees.tasks
    simp only [Array.getElem?_map] at ht
    rw [Array.getElem?_mapIdx]
    cases htask : w.tasks[t]? with
    | none => simpa [htask] using ht
    | some task =>
        cases htask' : w'.tasks[t]? with
        | none => simp [htask, htask'] at ht
        | some task' =>
            have hmachine : (w'.task t).machine = task'.machine := by
              simp [World.task, Array.getD_eq_getD_getElem?, htask']
            rw [htask, htask'] at ht
            rw [Option.map_some, hmachine, ← Task.eq_of_visible (Option.some.inj ht)]
  obtain ⟨⟨scopes, boxes, objects, records, locks⟩, tasks, pool, output⟩ := w'
  obtain ⟨-, rfl, rfl, rfl, rfl, -, hclosed⟩ := hagrees
  have hpool : pool = { pool with closed := w.pool.closed } := by rw [← hclosed]
  simp only [amid, around, Heap.amid, World.mk.injEq, Heap.mk.injEq, and_true]
  exact ⟨hscopes, htasks, hpool, houtput⟩

theorem toList_withoutLocals {scope : Scope} (h : w.heap.scopes[0]? = some scope) :
    w.withoutLocals.heap.scopes.toList = [scope] := by
  change w.heap.scopes.toList.take 1 = [scope]
  rw [toList_eq_of_getElem? h]
  rfl

theorem size_withoutLocals (hw : 0 < w.heap.scopes.size) :
    w.withoutLocals.heap.scopes.size = 1 := by
  obtain ⟨scope, hscope⟩ := exists_globals hw
  exact congrArg List.length (toList_withoutLocals hscope)

theorem agrees_withoutLocals (hw : 0 < w.heap.scopes.size) : w.Agrees w.withoutLocals := by
  obtain ⟨scope, hscope⟩ := exists_globals hw
  refine ⟨⟨scope, hscope, ?_⟩, rfl, rfl, rfl, rfl, rfl, rfl⟩
  rw [← Array.getElem?_toList, toList_withoutLocals hscope]
  rfl

/-- A world is amid its own scopes what agrees with it and has none of them. -/
theorem eq_amid_locals (hagrees : w'.Agrees w) (houtput : w'.output = lines ++ w.output) :
    w' = w.withoutLocals.amid (w'.around (w'.locals.map some) lines) := by
  have hw := hagrees.symm.size_pos
  have hnone : w.withoutLocals.locals = [] := by
    obtain ⟨scope, hscope⟩ := exists_globals hw
    rw [locals, toList_withoutLocals hscope]
    rfl
  refine eq_amid (hagrees.trans (agrees_withoutLocals hw)) ?_ houtput
  rw [hnone, Scope.fill_taken, List.append_nil]

theorem agrees_amid (hw : 0 < w.heap.scopes.size) (e : Surroundings) : (w.amid e).Agrees w where
  globals := by
    obtain ⟨scope, hscope⟩ := exists_globals hw
    refine ⟨scope, ?_, hscope⟩
    rw [← hscope, ← Array.getElem?_toList, ← Array.getElem?_toList]
    exact Scope.getElem?_amid w.heap.scopes.toList 0
  boxes := rfl
  objects := rfl
  records := rfl
  locks := rfl
  tasks := by
    apply Array.ext_getElem?
    intro t
    cases htask : w.tasks[t]? with
    | none => simp [amid, htask]
    | some task => simp [amid, htask, Task.visible]
  closed := rfl

/-! ## Others at work -/

theorem locals_madeLike (hv : 0 < v.heap.scopes.size) : (w.madeLike v).locals = w.locals := by
  obtain ⟨scope, hscope⟩ := exists_globals hv
  change (v.heap.scopes.toList.take 1 ++ w.locals).tail = w.locals
  rw [toList_eq_of_getElem? hscope]
  rfl

theorem size_madeLike (hv : 0 < v.heap.scopes.size) (hw : 0 < w.heap.scopes.size) :
    (w.madeLike v).heap.scopes.size = w.heap.scopes.size := by
  obtain ⟨scope, hscope⟩ := exists_globals hv
  change (v.heap.scopes.toList.take 1 ++ w.locals).length = w.heap.scopes.size
  rw [toList_eq_of_getElem? hscope, List.length_append, length_locals]
  simp only [List.take_succ_cons, List.take_zero, List.length_singleton]
  omega

theorem madeLike_agrees (hv : 0 < v.heap.scopes.size) : (w.madeLike v).Agrees v := by
  obtain ⟨scope, hscope⟩ := exists_globals hv
  refine ⟨⟨scope, ?_, hscope⟩, rfl, rfl, rfl, rfl, rfl, rfl⟩
  change (v.heap.scopes.toList.take 1 ++ w.locals).toArray[0]? = some scope
  rw [toList_eq_of_getElem? hscope]
  rfl

theorem scope_succ (w : World) (r : Nat) : w.heap.scope (r + 1) = w.locals.getD r default := by
  simp [Heap.scope, locals, Array.getD_eq_getD_getElem?, List.getD_eq_getElem?_getD]

theorem meanwhile_madeLike (hv : 0 < v.heap.scopes.size) (hw : 0 < w.heap.scopes.size)
    (held : List ScopeRef) : w.Meanwhile held v (w.madeLike v) where
  seen := madeLike_agrees hv
  printed := rfl
  kept r _ hr := by
    obtain ⟨r, rfl⟩ := Nat.exists_eq_add_one_of_ne_zero (Nat.ne_of_gt hr)
    rw [scope_succ, scope_succ, locals_madeLike hv]
  size_le := Nat.le_of_eq (size_madeLike hv hw).symm

theorem getElem?_of_lt {r : ScopeRef} (h : r < w.heap.scopes.size) :
    w.heap.scopes[r]? = some (w.heap.scope r) := by
  simp [Heap.scope, h]

theorem locals_amid (hw : 0 < w.heap.scopes.size) :
    (w.amid e).locals = Scope.fill e.scopes w.locals := by
  obtain ⟨scope, hscope⟩ := exists_globals hw
  change (Scope.amid e.scopes w.heap.scopes.toList).tail = Scope.fill e.scopes w.locals
  rw [toList_eq_of_getElem? hscope]
  rfl

theorem freeCount_le (hw : m.Fits e w) : Scope.freeCount e.scopes ≤ w.locals.length := by
  have hfree := hw.free
  rw [length_locals]
  omega

/-- Amid surroundings others change the surroundings, and what can be seen. -/
theorem Meanwhile.exists_amid (h : (w.amid e).Meanwhile held v w') (hw : m.Fits e w)
    (hown : ∀ r, 0 < r → r < w.heap.scopes.size → past e.scopes r ∈ held) :
    ∃ e' : Surroundings, w' = (w.madeLike v).amid e' ∧ e'.output = e.output ∧
      Scope.Retaken w.locals.length e.scopes e'.scopes := by
  have hpos : 0 < w.heap.scopes.size := Nat.zero_lt_of_lt hw.free
  have hv : 0 < v.heap.scopes.size := h.seen.symm.size_pos
  have hlength : (Scope.fill e.scopes w.locals).length ≤ w'.locals.length := by
    rw [← locals_amid hpos, length_locals, length_locals]
    exact Nat.sub_le_sub_right h.size_le 1
  have hplaces : ∀ r < w.locals.length,
      w'.locals[Scope.freePlace e.scopes r]? = w.locals[r]? := by
    intro r hr
    have hr : r + 1 < w.heap.scopes.size := by
      rw [length_locals] at hr
      omega
    have hlt : past e.scopes (r + 1) < w'.heap.scopes.size :=
      calc past e.scopes (r + 1) < past e.scopes w.heap.scopes.size := past_lt_past _ hr
        _ = (w.amid e).heap.scopes.size := (size_amid hw).symm
        _ ≤ w'.heap.scopes.size := h.size_le
    have hkept := h.kept _ (hown (r + 1) (Nat.succ_pos r) hr) (Nat.succ_pos _)
    rw [heap_amid, Heap.scope_amid] at hkept
    rw [getElem?_locals, getElem?_locals, getElem?_of_lt hr, ← hkept]
    exact getElem?_of_lt hlt
  obtain ⟨places, hfill, hretaken⟩ := Scope.exists_fill (freeCount_le hw) hlength hplaces
  have hagrees : w'.Agrees (w.madeLike v) := h.seen.trans (madeLike_agrees hv).symm
  have houtput : w'.output = e.output ++ (w.madeLike v).output := by
    rw [h.printed]
    exact Array.append_assoc
  refine ⟨w'.around places e.output, ?_, rfl, hretaken⟩
  exact eq_amid hagrees (by rw [locals_madeLike hv, hfill]) houtput

def openedUntil (w w' : World) : List ScopeRef :=
  List.range' w.heap.scopes.size (w'.heap.scopes.size - w.heap.scopes.size)

theorem mem_openedUntil {r : Nat} (hle : w.heap.scopes.size ≤ r)
    (hlt : r < w'.heap.scopes.size) : r ∈ w.openedUntil w' := by
  refine List.mem_range'_1.mpr ⟨hle, ?_⟩
  omega

end World

namespace Machine

variable {s : Setting} {n : Nat} {v w w' : World} {m m' : Machine} {e e' : Surroundings}
  {held : List ScopeRef} {moves : List (Option World)}

/-! ### Places that stay -/

theorem past_eq_of_retaken (h : Scope.Retaken w.locals.length e.scopes e'.scopes) :
    ∀ r < w.heap.scopes.size, past e'.scopes r = past e.scopes r := by
  intro r hr
  cases r with
  | zero => rfl
  | succ r =>
      refine congrArg (· + 1) (h.freePlace_eq r ?_)
      rw [World.length_locals]
      omega

theorem Fits.retaken (hw : m.Fits e w) (hv : 0 < v.heap.scopes.size)
    (h : Scope.Retaken w.locals.length e.scopes e'.scopes) : m.Fits e' (w.madeLike v) := by
  have hpos : 0 < w.heap.scopes.size := Nat.zero_lt_of_lt hw.free
  have hfree := h.freeCount_le
  rw [World.length_locals] at hfree
  refine Fits.of_size (w := w) ⟨by omega, hw.root, hw.inner⟩ (World.size_madeLike hv hpos)

/-! ## Coming down -/

/-- A machine goes on until it has come down to `n` frames, and schedules nothing on the way. It is
not alone: `moves` tells what happens one after the other. Either it takes a step, which may find
that it has to wait, or others make the world look like the one given. They leave alone the scopes
in `held` and those that the machine opens. -/
inductive Descends (s : Setting) (n : Nat) :
    List ScopeRef → List (Option World) → World → Machine → World → Machine → Prop
  | here {held : List ScopeRef} {w : World} {m : Machine} (hframes : m.frames.length = n) :
      Descends s n held [] w m w m
  | go {held : List ScopeRef} {moves : List (Option World)} {w w₁ w' : World}
      {m m₁ m' : Machine} {st : Step} (hframes : n < m.frames.length)
      (hstep : m.step s w = ⟨st, w₁, m₁⟩) (hst : st = .next ∨ st = .pause ∨ st = .blocked)
      (hquiet : w₁.tasks.size = w.tasks.size)
      (hrest : Descends s n (held ++ w.openedUntil w₁) moves w₁ m₁ w' m') :
      Descends s n held (none :: moves) w m w' m'
  | others {held : List ScopeRef} {moves : List (Option World)} {v w w₁ w' : World}
      {m m' : Machine} (hframes : n < m.frames.length) (hmeanwhile : w.Meanwhile held v w₁)
      (hrest : Descends s n held moves w₁ m w' m') :
      Descends s n held (some v :: moves) w m w' m'

/-- Lets a machine go on by itself until it has come down to `n` frames, if this takes no more than
`fuel` steps. -/
def descend? (s : Setting) (n : Nat) : Nat → World → Machine → Option (World × Machine)
  | 0, w, m => if m.frames.length = n then some (w, m) else none
  | fuel + 1, w, m =>
      if m.frames.length = n then some (w, m)
      else if m.frames.length < n then none
      else match m.step s w with
        | ⟨.next, w₁, m₁⟩ | ⟨.pause, w₁, m₁⟩ =>
            if w₁.tasks.size = w.tasks.size then descend? s n fuel w₁ m₁ else none
        | _ => none

theorem descends_of_descend? {fuel : Nat} (h : descend? s n fuel w m = some (w', m')) :
    ∃ moves, ∀ held, Descends s n held moves w m w' m' := by
  induction fuel generalizing w m with
  | zero =>
      simp only [descend?] at h
      split at h
      · next hframes =>
          cases h
          exact ⟨[], fun _ => .here hframes⟩
      · contradiction
  | succ fuel ih =>
      simp only [descend?] at h
      split at h
      · next hframes =>
          cases h
          exact ⟨[], fun _ => .here hframes⟩
      · split at h
        · contradiction
        · have hframes : n < m.frames.length := by omega
          split at h
          · next hstep =>
              split at h
              · next hquiet =>
                  obtain ⟨moves, hrest⟩ := ih h
                  exact ⟨none :: moves,
                    fun _ => .go hframes hstep (Or.inl rfl) hquiet (hrest _)⟩
              · contradiction
          · next hstep =>
              split at h
              · next hquiet =>
                  obtain ⟨moves, hrest⟩ := ih h
                  exact ⟨none :: moves,
                    fun _ => .go hframes hstep (Or.inr (Or.inl rfl)) hquiet (hrest _)⟩
              · contradiction
          · contradiction

end Machine

end Statute
