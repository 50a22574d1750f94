import Statute.Proofs.Machine.Construction
import Statute.Proofs.Statement.Refinement

/-!
# Counted loops

A counted loop evaluates its bounds, the lower one first, and then takes its turns: one for every
integer from the lower bound to the upper one, each of them with a body that runs by itself in a
fresh scope. A turn that ends, or goes on with the next, is followed by the next turn; any other way
of leaving the body leaves the loop.

`Base.Counts` says this of the history of a machine that is in the loop, whatever happens to the
world between its steps, so also if it is set aside at the beginning of its turns. The numbers of
the turns do not depend on anything that a body does: the number of the next turn is fixed before
the body begins. The last turn there can be is that of the greatest integer, which none comes after.
-/

namespace Statute

/-- What the scope of a turn binds: the loop variable, if there is one, to the number. -/
def Machine.turnVars (var : Option String) (i : Int64) : List (String × Value) :=
  match var with
  | some name => [(name, .int i)]
  | none => []

def World.turned (w : World) (var : Option String) (i : Int64) : World :=
  { w with
    heap := (w.heap.newScope "repeat").1.defineAll w.heap.scopes.size (Machine.turnVars var i) }

/-- What the statement after a loop learns of how the body of a turn was left. -/
def Exit.pastLoop : Exit → Signal
  | breakOut => .run
  | e => .leave e

/-- A turn of a counted loop: its number, the world that it was begun in, and what the machine that
runs its body by itself has become. -/
structure Turn where
  number : Int64
  world : World
  machine : Machine

namespace Turn

def scope (t : Turn) : ScopeRef :=
  t.world.heap.scopes.size

/-- The body has ended normally, or the next turn is asked for. -/
def Completes (t : Turn) : Prop :=
  t.machine.frames = [] ∧ (t.machine.signal = .run ∨ t.machine.signal = .leave .continueOn)

/-- The body has been left, and not for the next turn. -/
def Leaves (t : Turn) (e : Exit) : Prop :=
  t.machine.frames = [] ∧ t.machine.signal = .leave e ∧ e ≠ .continueOn

/-- The scope of the turn is a new one. It binds the loop variable to the number of the turn, and
nothing else; all other scopes are as they were. -/
structure Fresh (var : Option String) (t : Turn) : Prop where
  size : (t.world.turned var t.number).heap.scopes.size = t.scope + 1
  others : ∀ r < t.scope, (t.world.turned var t.number).heap.scope r = t.world.heap.scope r
  bound : ∀ x, (t.world.turned var t.number).heap.local? t.scope x =
    if var = some x then some (.int t.number) else none

end Turn

namespace Base

/-- What is below the body of a turn: the loop, with the turns from `next` on before it. -/
def looping (b : Base) (var : Option String) (next : Option Int64) (last : Int64) (body : Body) :
    Base :=
  ⟨.count var next last body :: b.frames, b.scopes, b.depth⟩

def counting (b : Base) (var : Option String) (next : Option Int64) (last : Int64) (body : Body) :
    Machine :=
  (b.looping var next last body).answering .run

/-- The machine that runs a body by itself, in the scope `r` inside the scopes at hand. -/
def running (b : Base) (r : ScopeRef) (body : Body) : Machine :=
  ⟨[.body body true false], .run, ⟨b.scopes.current, [r :: b.scopes.current]⟩, b.depth⟩

variable (s : Setting) (b : Base) (var : Option String) (last : Int64) (body : Body)

def beyond (t : Turn) : Base :=
  b.looping var (Machine.successor? t.number) last body

/-- A turn is begun: in the world that the loop finds, its step opens the scope of the turn with the
number in it, and the body is to run in this scope. -/
def Begins (t : Turn) : Prop :=
  (b.counting var (some t.number) last body).step s t.world =
    ⟨.pause, t.world.turned var t.number,
      (b.running t.scope body).above (b.beyond var last body t).frames b.scopes⟩

/-- A turn is begun, and its body runs by itself. -/
structure Takes (t : Turn) (ts : List Moment) : Prop where
  within : t.number ≤ last
  begins : b.Begins s var last body t
  moments : ∃ us, (b.running t.scope body).Passes s us t.machine ∧
    ts = ⟨t.world, b.counting var (some t.number) last body⟩ ::
      us.map (.above (b.beyond var last body t).frames b.scopes)

/-- How a counted loop goes on that has the turns from `next` on before it: the moments, the turns
that are begun, and how far all this has come. -/
inductive Counts : Option Int64 → List Moment → List Turn → Headway → Prop
  | begins (next : Option Int64) : Counts next [] [] (.going (b.counting var next last body))
  /-- There are no more turns. -/
  | finishes {next : Option Int64} (hover : ∀ i ∈ next, last < i) (w : World) :
      Counts next [⟨w, b.counting var next last body⟩] [] (.ended .run)
  /-- A turn is under way, or its body has just been left. -/
  | turns {t : Turn} {us : List Moment} (ht : b.Takes s var last body t us) :
      Counts (some t.number) us [t]
        (.going (t.machine.above (b.beyond var last body t).frames b.scopes))
  | completes {t : Turn} {us ts : List Moment} {turns : List Turn} {res : Headway}
      (ht : b.Takes s var last body t us) (hend : t.machine.frames = [])
      (hsignal : t.machine.signal = .run)
      (hrest : Counts (Machine.successor? t.number) ts turns res) :
      Counts (some t.number) (us ++ ts) (t :: turns) res
  | continues {t : Turn} {us ts : List Moment} {turns : List Turn} {res : Headway}
      (ht : b.Takes s var last body t us) (hend : t.machine.frames = [])
      (hsignal : t.machine.signal = .leave .continueOn) (w : World)
      (hrest : Counts (Machine.successor? t.number) ts turns res) :
      Counts (some t.number)
        (us ++ ⟨w, (b.beyond var last body t).answering (.leave .continueOn)⟩ :: ts) (t :: turns)
        res
  | leaves {t : Turn} {us : List Moment} {e : Exit} (ht : b.Takes s var last body t us)
      (hleaves : t.Leaves e) (w : World) :
      Counts (some t.number) (us ++ [⟨w, (b.beyond var last body t).answering (.leave e)⟩]) [t]
        (.ended e.pastLoop)

end Base

variable {s : Setting} {b : Base} {var : Option String} {last i : Int64} {body : Body}
  {next : Option Int64} {ts us : List Moment} {t : Turn} {turns : List Turn} {res : Headway}
  {m : Machine} {w w' : World} {signal : Signal} {e : Exit}

/-! ## The steps of a loop -/

theorem Turn.fresh (var : Option String) (t : Turn) : t.Fresh var := by
  have hsize : t.scope < (t.world.heap.newScope "repeat").1.scopes.size := by
    simp [Heap.newScope, scope]
  refine ⟨?_, fun r hr => ?_, fun x => ?_⟩
  · simp [World.turned, Heap.size_defineAll, Heap.newScope, scope]
  · change Heap.scope (Heap.defineAll _ t.scope _) r = _
    rw [Call.scope_defineAll_of_ne (Nat.ne_of_lt hr), Heap.scope_newScope_of_lt hr]
  · change Heap.local? (Heap.defineAll _ t.scope (Machine.turnVars var t.number)) t.scope x = _
    rw [Call.local?_defineAll hsize, scope, Heap.local?_newScope_size, Option.or_none]
    cases var with
    | none => rfl
    | some name =>
        by_cases hx : x = name
        · simp [Machine.turnVars, hx]
        · simp [Machine.turnVars, List.lookup_cons, beq_false_of_ne hx, Ne.symm hx]

namespace Base

theorem inOrder_running (b : Base) (r : ScopeRef) (body : Body) :
    (b.running r body).InOrder .statement b.depth b.scopes.current :=
  ⟨rfl, rfl, [], b.depth, ⟨⟨_, rfl⟩, rfl⟩, .root⟩

theorem step_counting_over (hover : ∀ i ∈ next, last < i) (w : World) :
    (b.counting var next last body).step s w = ⟨.next, w, b.answering .run⟩ := by
  cases next with
  | none => rfl
  | some i => exact if_pos (hover i rfl)

theorem step_counting (hi : i ≤ last) (w : World) :
    (b.counting var (some i) last body).step s w =
      ⟨.pause, w.turned var i, (b.running w.heap.scopes.size body).above
        (b.looping var (Machine.successor? i) last body).frames b.scopes⟩ :=
  if_neg (Int64.not_lt.mpr hi)

theorem step_looping_continue (b : Base) (w : World) :
    ((b.looping var next last body).answering (.leave .continueOn)).step s w =
      ⟨.next, w, b.counting var next last body⟩ :=
  rfl

theorem step_looping_leave (he : e ≠ .continueOn) (w : World) :
    ((b.looping var next last body).answering (.leave e)).step s w =
      ⟨.next, w, b.answering e.pastLoop⟩ := by
  cases e with
  | continueOn => contradiction
  | _ => rfl

end Base

/-- A machine that runs statements by itself comes to their end, or leaves them. -/
theorem Machine.InOrder.ending {n : Machine} {base : Nat} {env : Env}
    (horder : n.InOrder .statement base env) (hend : n.frames = []) :
    ∃ signal, (signal = .run ∨ ∃ e, signal = .leave e) ∧ n = ⟨[], signal, ⟨env, []⟩, base⟩ := by
  have hn := horder.eq_of_frames_nil hend
  rw [hn] at horder
  refine ⟨n.signal, ?_, hn⟩
  generalize n.signal = signal at horder
  cases signal with
  | run => exact Or.inl rfl
  | value v => exact absurd (Upholds.of_nil horder.2).1 (by decide)
  | leave e => exact Or.inr ⟨e, rfl⟩

/-! ## Histories of a loop -/

namespace Base

/-- Whatever the history of a machine that is in a counted loop, it is one that the loop can
have. -/
theorem does_counts (h : (b.counting var next last body).Passes s ts m) :
    b.Does s (fun us res => ∃ turns, b.Counts s var last body next us turns res) ts m := by
  -- After each turn a shorter history remains.
  induction hlength : ts.length using Nat.strong_induction_on generalizing ts next with
  | _ length ih =>
  cases h with
  | stay => exact Or.inl ⟨[], .begins next⟩
  | @go w _ _ ts hcrash hrest =>
      by_cases hover : ∀ i ∈ next, last < i
      · rw [step_counting_over hover] at hrest
        exact Or.inr ⟨[_], ts, .run, rfl, ⟨[], .finishes hover w⟩, hrest⟩
      obtain ⟨i, rfl, hi⟩ : ∃ i, next = some i ∧ i ≤ last := by
        simpa using hover
      rw [step_counting hi] at hrest
      rcases hrest.of_above (b.inOrder_running w.heap.scopes.size body) with
        ⟨us, n, rfl, rfl, hus⟩ | ⟨us, n, w₁, later, rfl, hus, hend, hlater⟩
      · exact Or.inl ⟨_, .turns (t := ⟨i, w, n⟩) ⟨hi, step_counting hi w, us, hus, rfl⟩⟩
      have ht : b.Takes s var last body ⟨i, w, n⟩ _ := ⟨hi, step_counting hi w, us, hus, rfl⟩
      obtain ⟨signal, hsignal, rfl⟩ := (hus.inOrder (b.inOrder_running _ body)).ending hend
      have hshort : later.length < length ∧ later.length + 1 < length := by
        rw [← hlength, List.length_cons, List.length_append, List.length_map, List.length_cons]
        omega
      rcases hsignal with rfl | ⟨e, rfl⟩
      · rcases ih _ hshort.2 hlater rfl with ⟨turns, hgoing⟩ |
          ⟨us', vs, signal, hts, ⟨turns, hended⟩, hvs⟩
        · exact Or.inl ⟨_, .completes ht rfl rfl hgoing⟩
        · refine Or.inr ⟨_, vs, signal, ?_, ⟨_, .completes ht rfl rfl hended⟩, hvs⟩
          rw [List.append_assoc, ← hts]
          rfl
      · cases hlater with
        | go hcrash' hnext =>
            by_cases he : e = .continueOn
            · subst he
              rcases ih _ hshort.1 hnext rfl with ⟨turns, hgoing⟩ |
                ⟨us', vs, signal, rfl, ⟨turns, hended⟩, hvs⟩
              · exact Or.inl ⟨_, .continues ht rfl rfl w₁ hgoing⟩
              · refine Or.inr ⟨_, vs, signal, ?_, ⟨_, .continues ht rfl rfl w₁ hended⟩, hvs⟩
                rw [List.append_assoc]
                rfl
            · have hleaves : Turn.Leaves
                  ⟨i, w, ⟨[], .leave e, ⟨b.scopes.current, []⟩, b.depth⟩⟩ e := ⟨rfl, rfl, he⟩
              change Machine.Passes s (((b.looping var (Machine.successor? i) last body).answering
                (.leave e)).step s w₁).machine later m at hnext
              rw [step_looping_leave he] at hnext
              refine Or.inr ⟨_, later, _, ?_, ⟨_, .leaves ht hleaves w₁⟩, hnext⟩
              rw [List.append_assoc]
              rfl

end Base

/-! ## The turns -/

theorem Turn.Leaves.not_completes (h : t.Leaves e) : ¬ t.Completes := by
  rintro ⟨-, hrun | hcontinue⟩
  · exact Signal.noConfusion (h.2.1.symm.trans hrun)
  · exact h.2.2 (Signal.leave.inj (h.2.1.symm.trans hcontinue))

/-- How many turns there are from `next` on. -/
def Machine.turnsLeft (last : Int64) : Option Int64 → Nat
  | some i => (last.toInt - i.toInt + 1).toNat
  | none => 0

theorem Machine.turnsLeft_over (hover : ∀ i ∈ next, last < i) : turnsLeft last next = 0 := by
  cases next with
  | none => rfl
  | some i =>
      have hlt := Int64.lt_iff_toInt_lt.mp (hover i rfl)
      simp only [turnsLeft]
      omega

/-- A turn is one of those that there were, also when there is no number after it. -/
theorem Machine.turnsLeft_successor? (hi : i ≤ last) :
    turnsLeft last (some i) = turnsLeft last (successor? i) + 1 := by
  rw [Int64.le_iff_toInt_le] at hi
  cases hnext : successor? i with
  | some j =>
      have hj := toInt_of_successor? hnext
      simp only [turnsLeft]
      omega
  | none =>
      have hmax := toInt_of_successor?_eq_none hnext
      have hlast := Int64.toInt_lt last
      unfold maxInt at hmax
      simp only [turnsLeft]
      omega

namespace Base.Counts

theorem turns_eq_nil (h : b.Counts s var last body none ts turns res) : turns = [] := by
  cases h <;> rfl

/-- After a turn the numbers go on from its own. -/
theorem number_cons {t₀ : Turn} {k : Nat} (hnone : Machine.successor? t₀.number = none → turns = [])
    (hrest : ∀ i ∈ Machine.successor? t₀.number, ∀ (k : Nat) t, turns[k]? = some t →
      t.number.toInt = i.toInt + k)
    (ht : (t₀ :: turns)[k]? = some t) : t.number.toInt = t₀.number.toInt + k := by
  cases k with
  | zero =>
      obtain rfl := Option.some.inj ht
      exact (Int.add_zero _).symm
  | succ k =>
      cases hnext : Machine.successor? t₀.number with
      | none =>
          obtain rfl := hnone hnext
          contradiction
      | some i =>
          have hi := Machine.toInt_of_successor? hnext
          have hk := hrest i hnext k t ht
          push_cast
          omega

/-- The turns have the numbers that follow one another from the first on. -/
theorem numbers (h : b.Counts s var last body next ts turns res) :
    ∀ i ∈ next, ∀ (k : Nat) t, turns[k]? = some t → t.number.toInt = i.toInt + k := by
  have hempty : ∀ {k : Nat} {t : Turn}, ([] : List Turn)[k]? ≠ some t := nofun
  induction h with
  | begins => exact fun _ _ _ _ ht => absurd ht hempty
  | finishes => exact fun _ _ _ _ ht => absurd ht hempty
  | turns =>
      rintro i ⟨⟩ k t ht
      exact number_cons (fun _ => rfl) (fun _ _ _ _ ht => absurd ht hempty) ht
  | leaves =>
      rintro i ⟨⟩ k t ht
      exact number_cons (fun _ => rfl) (fun _ _ _ _ ht => absurd ht hempty) ht
  | completes _ _ _ hrest ih =>
      rintro i ⟨⟩ k t ht
      exact number_cons (fun hnone => (hnone ▸ hrest).turns_eq_nil) ih ht
  | continues _ _ _ _ hrest ih =>
      rintro i ⟨⟩ k t ht
      exact number_cons (fun hnone => (hnone ▸ hrest).turns_eq_nil) ih ht

theorem within (h : b.Counts s var last body next ts turns res) :
    ∀ t ∈ turns, t.number ≤ last := by
  induction h with
  | begins => exact List.forall_mem_nil _
  | finishes => exact List.forall_mem_nil _
  | turns ht => exact List.forall_mem_singleton.mpr ht.within
  | completes ht _ _ _ ih => exact List.forall_mem_cons.mpr ⟨ht.within, ih⟩
  | continues ht _ _ _ _ ih => exact List.forall_mem_cons.mpr ⟨ht.within, ih⟩
  | leaves ht => exact List.forall_mem_singleton.mpr ht.within

theorem begun (h : b.Counts s var last body next ts turns res) :
    ∀ t ∈ turns, b.Begins s var last body t :=
  fun t ht => step_counting (h.within t ht) t.world

/-- Only after a turn that has ended normally, or asked for it, is there another one. -/
theorem completed (h : b.Counts s var last body next ts turns res) :
    ∀ t ∈ turns.dropLast, t.Completes := by
  have hthen : ∀ {t : Turn} {turns : List Turn}, t.Completes →
      (∀ t ∈ turns.dropLast, t.Completes) → ∀ t' ∈ (t :: turns).dropLast, t'.Completes := by
    intro t turns ht hturns
    cases turns with
    | nil => exact List.forall_mem_nil _
    | cons t' turns => exact List.forall_mem_cons.mpr ⟨ht, hturns⟩
  induction h with
  | begins => exact List.forall_mem_nil _
  | finishes => exact List.forall_mem_nil _
  | turns => exact List.forall_mem_nil _
  | completes _ hend hsignal _ ih => exact hthen ⟨hend, Or.inl hsignal⟩ ih
  | continues _ hend hsignal _ _ ih => exact hthen ⟨hend, Or.inr hsignal⟩ ih
  | leaves => exact List.forall_mem_nil _

/-- A turn that leaves the loop is the last one. -/
theorem last_of_leaves (h : b.Counts s var last body next ts turns res) {k : Nat}
    (ht : turns[k]? = some t) (hleaves : t.Leaves e) : k + 1 = turns.length := by
  have hk := (List.getElem?_eq_some_iff.mp ht).1
  by_contra hne
  have hmem : t ∈ turns.dropLast := by
    refine List.mem_of_getElem? (i := k) ?_
    rw [List.getElem?_dropLast, if_pos (by omega), ht]
  exact hleaves.not_completes (h.completed t hmem)

/-- When a loop has ended, so have the bodies of all its turns. -/
theorem finished (h : b.Counts s var last body next ts turns (.ended signal)) :
    ∀ t ∈ turns, t.Completes ∨ ∃ e, t.Leaves e := by
  generalize hres : Headway.ended signal = res at h
  induction h with
  | begins => contradiction
  | finishes => exact List.forall_mem_nil _
  | turns => contradiction
  | completes _ hend hsignal _ ih =>
      exact List.forall_mem_cons.mpr ⟨Or.inl ⟨hend, Or.inl hsignal⟩, ih hres⟩
  | continues _ hend hsignal _ _ ih =>
      exact List.forall_mem_cons.mpr ⟨Or.inl ⟨hend, Or.inr hsignal⟩, ih hres⟩
  | leaves _ hleaves => exact List.forall_mem_singleton.mpr (Or.inr ⟨_, hleaves⟩)

/-- If all turns that are begun complete, a loop that has ended has taken all of its turns. -/
theorem full (h : b.Counts s var last body next ts turns (.ended signal))
    (hall : ∀ t ∈ turns, t.Completes) :
    signal = .run ∧ turns.length = Machine.turnsLeft last next := by
  generalize hres : Headway.ended signal = res at h
  induction h with
  | begins => contradiction
  | finishes hover =>
      rw [Machine.turnsLeft_over hover]
      exact ⟨Headway.ended.inj hres, rfl⟩
  | turns => contradiction
  | completes ht _ _ _ ih =>
      obtain ⟨hrun, hlength⟩ := ih (List.forall_mem_cons.mp hall).2 hres
      rw [Machine.turnsLeft_successor? ht.within, List.length_cons, hlength]
      exact ⟨hrun, rfl⟩
  | continues ht _ _ _ _ ih =>
      obtain ⟨hrun, hlength⟩ := ih (List.forall_mem_cons.mp hall).2 hres
      rw [Machine.turnsLeft_successor? ht.within, List.length_cons, hlength]
      exact ⟨hrun, rfl⟩
  | leaves _ hleaves =>
      exact absurd (List.forall_mem_singleton.mp hall) hleaves.not_completes

/-- A loop that is left comes to what the loop makes of this. -/
theorem left (h : b.Counts s var last body next ts turns (.ended signal)) (ht : t ∈ turns)
    (hleaves : t.Leaves e) : signal = e.pastLoop := by
  generalize hres : Headway.ended signal = res at h
  induction h with
  | begins => contradiction
  | finishes => contradiction
  | turns => contradiction
  | completes _ hend hsignal _ ih =>
      rcases List.mem_cons.mp ht with rfl | ht
      · exact absurd ⟨hend, Or.inl hsignal⟩ hleaves.not_completes
      · exact ih ht hres
  | continues _ hend hsignal _ _ ih =>
      rcases List.mem_cons.mp ht with rfl | ht
      · exact absurd ⟨hend, Or.inr hsignal⟩ hleaves.not_completes
      · exact ih ht hres
  | leaves _ hleaves' =>
      obtain rfl := List.mem_singleton.mp ht
      obtain rfl := Signal.leave.inj (hleaves.2.1.symm.trans hleaves'.2.1)
      exact Headway.ended.inj hres

end Base.Counts

/-- Between two turns a machine always goes on. -/
theorem Base.step_counting_goesOn (b : Base) (w : World) :
    ((b.counting var next last body).step s w).step = .next ∨
      ((b.counting var next last body).step s w).step = .pause := by
  by_cases hover : ∀ i ∈ next, last < i
  · rw [step_counting_over hover]
    exact Or.inl rfl
  · obtain ⟨i, rfl, hi⟩ : ∃ i, next = some i ∧ i ≤ last := by simpa using hover
    rw [step_counting hi]
    exact Or.inr rfl

/-- A loop that has not ended goes on with its next step, in whatever world this is taken, or the
body of its last turn is under way. -/
theorem Base.Counts.goesOn (h : b.Counts s var last body next ts turns (.going m)) :
    (∃ t, turns.getLast? = some t ∧ t.machine.frames ≠ [] ∧
        m = t.machine.above (b.beyond var last body t).frames b.scopes) ∨
      ∀ w, (m.step s w).step = .next ∨ (m.step s w).step = .pause := by
  generalize hres : Headway.going m = res at h
  have hthen : ∀ {t₀ : Turn} {turns : List Turn},
      (∃ t, turns.getLast? = some t ∧ t.machine.frames ≠ [] ∧
        m = t.machine.above (b.beyond var last body t).frames b.scopes) →
      ∃ t, (t₀ :: turns).getLast? = some t ∧ t.machine.frames ≠ [] ∧
        m = t.machine.above (b.beyond var last body t).frames b.scopes := by
    rintro t₀ turns ⟨t, hlast, hunderway⟩
    exact ⟨t, by rw [List.getLast?_cons, hlast]; rfl, hunderway⟩
  induction h with
  | begins next =>
      obtain rfl := Headway.going.inj hres
      exact Or.inr b.step_counting_goesOn
  | finishes => contradiction
  | @turns t us ht =>
      obtain rfl := Headway.going.inj hres
      by_cases hframes : t.machine.frames = []
      · obtain ⟨us, hbody, -⟩ := ht.moments
        obtain ⟨signal, hsignal, hmachine⟩ :=
          (hbody.inOrder (b.inOrder_running _ body)).ending hframes
        rw [hmachine]
        rcases hsignal with rfl | ⟨e, rfl⟩
        · exact Or.inr b.step_counting_goesOn
        · refine Or.inr fun w => Or.inl ?_
          change (((b.beyond var last body t).answering (.leave e)).step s w).step = .next
          by_cases he : e = .continueOn
          · subst he
            rfl
          · rw [beyond, step_looping_leave he]
      · exact Or.inl ⟨t, rfl, hframes, rfl⟩
  | completes _ _ _ _ ih => exact (ih hres).imp_left hthen
  | continues _ _ _ _ _ ih => exact (ih hres).imp_left hthen
  | leaves => contradiction

end Statute
