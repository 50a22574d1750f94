import Statute.Proofs.Concurrency.Tasks
import Mathlib.Logic.Function.Iterate
import Mathlib.Logic.Relation

/-!
# Waiting for a task

A task is shared by whoever advances it, whoever gives it up and any number of machines that wait
for it. None of them does its work in one go: they look at the parts of the task one after the
other, and the others get on with theirs in between. Only who has the machine of the task in hand
keeps others from taking it.

`Shared` is a task with the places that everybody has got to. Before the task is done nobody has got
hold of an outcome, and from the moment it is done there is one outcome that the task comes to. It
stays in the task until somebody takes it, and that can happen once.

Where nobody comes in between, the steps are what a machine does that waits, and what
`World.abandon` and `World.advance` do; this is shown at the end.
-/

namespace Statute

open Relation (ReflTransGen)

/-- Where the wait of a machine for a task has got to. -/
inductive Waiting where
  /-- It is about to look whether the task was waited for. -/
  | begun
  /-- It is about to look whether the task is done. -/
  | unclaimed
  /-- It is about to mark the task as waited for. -/
  | ended
  /-- It is about to take the outcome. -/
  | claimed
  | settled (result : Except Failure Outcome)
deriving Inhabited

namespace Waiting

/-- The next thing that a wait does. A wait for a task that is not done begins again. -/
def step (ref : TaskRef) (t : Task) : Waiting → Task × Waiting
  | begun => if t.waited then (t, settled (.error (t.doubleWait ref))) else (t, unclaimed)
  | unclaimed => if t.done then (t, ended) else (t, begun)
  | ended =>
      if t.waited then (t, settled (.error (t.doubleWait ref)))
      else ({ t with waited := true }, claimed)
  | claimed => ({ t with outcome := none }, settled (.ok (t.outcome.getD (.ok .empty))))
  | settled r => (t, settled r)

def hasObtained : Waiting → Bool
  | settled (.ok _) => true
  | _ => false

def hasClaimed : Waiting → Bool
  | claimed => true
  | p => p.hasObtained

theorem countP_hasObtained_le (ps : List Waiting) :
    ps.countP hasObtained ≤ ps.countP hasClaimed := by
  refine List.countP_mono_left fun p _ hp => ?_
  cases p with
  | claimed => rfl
  | _ => exact hp

end Waiting

/-- Where giving up a task has got to. -/
inductive Abandoning where
  /-- It is about to take the machine out of the task. -/
  | begun
  /-- It is about to look whether the task is done. -/
  | taken
  /-- It is about to store its failure as the outcome. -/
  | unfinished
  /-- It is about to mark the task as done. -/
  | stored
  | finished
deriving DecidableEq, Repr, Inhabited

def Abandoning.step (ref : TaskRef) (t : Task) : Abandoning → Task × Abandoning
  | begun => ({ t with machine := none }, taken)
  | taken => (t, if t.done then finished else unfinished)
  | unfinished => ({ t with outcome := some (.error (t.abandonment ref)) }, stored)
  | stored => ({ t with done := true }, finished)
  | finished => (t, finished)

/-- Where advancing a task has got to. -/
inductive Advancing where
  /-- Nobody has the machine in hand. -/
  | idle
  | working (m : Machine)
  /-- The machine is gone, and its outcome is about to be stored. -/
  | ending (o : Outcome)
  /-- The task is about to be marked as done. -/
  | stored
deriving Inhabited

/-- What advancing a task can do next. While the machine is at work anything can happen to the
world. -/
inductive Advancing.Moves (s : Setting) : Task → Advancing → Task → Advancing → Prop
  | begin {t : Task} {m : Machine} (hmachine : t.machine = some m) :
      Moves s t .idle { t with machine := none } (.working m)
  | suspend {t : Task} {m m' : Machine} {fuel : Nat} {w w' : World}
      (hcarried : m.resume s fuel w = ⟨.suspended, w', m'⟩) :
      Moves s t (.working m) { t with machine := some m' } .idle
  | finish {t : Task} {m m' : Machine} {fuel : Nat} {w w' : World}
      (hcarried : m.resume s fuel w = ⟨.finished, w', m'⟩) :
      Moves s t (.working m) t (.ending m'.outcome)
  | crash {t : Task} {m m' : Machine} {fuel : Nat} {w w' : World} {message : Option String}
      (hcarried : m.resume s fuel w = ⟨.crashed message, w', m'⟩) :
      Moves s t (.working m) t (.ending (t.breakdown s.config.debug message))
  | store {t : Task} {o : Outcome} :
      Moves s t (.ending o) { t with outcome := some o } .stored
  | mark {t : Task} : Moves s t .stored { t with done := true } .idle

/-- A task, and where everybody has got to who has to do with it. -/
structure Shared where
  task : Task
  advancing : Advancing
  abandoning : List Abandoning
  waiting : List Waiting

namespace Shared

def new (t : Task) : Shared :=
  ⟨t, .idle, [], []⟩

/-- What can happen to a shared task. Its machine cannot be taken away while it is in hand. -/
inductive Moves (s : Setting) (ref : TaskRef) : Shared → Shared → Prop
  | advance {t t' : Task} {a a' : Advancing} {abandoning : List Abandoning}
      {waiting : List Waiting} (hmoves : a.Moves s t t' a') :
      Moves s ref ⟨t, a, abandoning, waiting⟩ ⟨t', a', abandoning, waiting⟩
  | beginAbandon {t : Task} {a : Advancing} {abandoning : List Abandoning}
      {waiting : List Waiting} :
      Moves s ref ⟨t, a, abandoning, waiting⟩ ⟨t, a, .begun :: abandoning, waiting⟩
  | abandon {t : Task} {a : Advancing} {waiting : List Waiting} (before : List Abandoning)
      (p : Abandoning) (after : List Abandoning) (hfree : p = .begun → a = .idle) :
      Moves s ref ⟨t, a, before ++ p :: after, waiting⟩
        ⟨(p.step ref t).1, a, before ++ (p.step ref t).2 :: after, waiting⟩
  | beginWait {t : Task} {a : Advancing} {abandoning : List Abandoning}
      {waiting : List Waiting} :
      Moves s ref ⟨t, a, abandoning, waiting⟩ ⟨t, a, abandoning, .begun :: waiting⟩
  | wait {t : Task} {a : Advancing} {abandoning : List Abandoning} (before : List Waiting)
      (p : Waiting) (after : List Waiting) :
      Moves s ref ⟨t, a, abandoning, before ++ p :: after⟩
        ⟨(p.step ref t).1, a, abandoning, before ++ (p.step ref t).2 :: after⟩

def Reaches (s : Setting) (ref : TaskRef) : Shared → Shared → Prop :=
  ReflTransGen (Moves s ref)

variable {s : Setting} {ref : TaskRef} {t₀ : Task} {σ σ' : Shared} {o : Outcome}

/-! ## What a task comes to -/

/-- A machine that another one was carried to, from checkpoint to checkpoint. -/
def Carries (s : Setting) : Machine → Machine → Prop :=
  ReflTransGen fun m m' => ∃ fuel w w', m.resume s fuel w = ⟨.suspended, w', m'⟩

/-- The outcomes that a task can come to: what its machine comes to, what stands for a breakdown of
the host, and the failure of having been given up. -/
inductive Comes (s : Setting) (ref : TaskRef) (t : Task) : Outcome → Prop
  | result {m₀ m m' : Machine} {fuel : Nat} {w w' : World} (hmachine : t.machine = some m₀)
      (hcarries : Carries s m₀ m) (hend : m.resume s fuel w = ⟨.finished, w', m'⟩) :
      Comes s ref t m'.outcome
  | breakdown {m₀ m m' : Machine} {fuel : Nat} {w w' : World} {message : Option String}
      (hmachine : t.machine = some m₀) (hcarries : Carries s m₀ m)
      (hend : m.resume s fuel w = ⟨.crashed message, w', m'⟩) :
      Comes s ref t (t.breakdown s.config.debug message)
  | abandonment : Comes s ref t (.error (t.abandonment ref))

theorem messages_of_label {t t' : Task} (h : t.label = t'.label) (ref : TaskRef) :
    t.doubleWait ref = t'.doubleWait ref ∧ t.abandonment ref = t'.abandonment ref ∧
      ∀ debug message, t.breakdown debug message = t'.breakdown debug message := by
  refine ⟨?_, ?_, fun debug message => ?_⟩
  · rw [Task.doubleWait, Task.display, h, Task.doubleWait, Task.display]
  · rw [Task.abandonment, Task.display, h, Task.abandonment, Task.display]
  · rw [Task.breakdown, h, Task.breakdown]

/-! ## Before the task is done -/

/-- Advancing fits the task: the machine in hand is the task's own, and what is about to become the
outcome is one that the task can come to. -/
def Fits (s : Setting) (ref : TaskRef) (t₀ t : Task) : Advancing → Prop
  | .idle => ∀ m, t.machine = some m → ∃ m₀, t₀.machine = some m₀ ∧ Carries s m₀ m
  | .working m => t.machine = none ∧ ∃ m₀, t₀.machine = some m₀ ∧ Carries s m₀ m
  | .ending o => t.machine = none ∧ Comes s ref t₀ o
  | .stored => t.machine = none ∧ ∃ o, t.outcome = some o ∧ Comes s ref t₀ o

/-- A task that is not done: nobody has found it done, and whoever gives it up has taken its machine
for good. -/
structure Open (s : Setting) (ref : TaskRef) (t₀ : Task) (σ : Shared) : Prop where
  label : σ.task.label = t₀.label
  done : σ.task.done = false
  waited : σ.task.waited = false
  waiting : ∀ p ∈ σ.waiting, p = .begun ∨ p = .unclaimed
  advancing : Fits s ref t₀ σ.task σ.advancing
  taken : ∀ p ∈ σ.abandoning, p ≠ .begun → σ.advancing = .idle ∧ σ.task.machine = none
  abandoned : .stored ∈ σ.abandoning → σ.task.outcome = some (.error (t₀.abandonment ref))

/-- A task that is done and came to `o`: the outcome is in the task until a wait takes it, and one
wait has marked the task as waited for if it is marked. Whoever still wants to store another outcome
has the same one. -/
structure Closed (ref : TaskRef) (t₀ : Task) (o : Outcome) (σ : Shared) : Prop where
  label : σ.task.label = t₀.label
  done : σ.task.done = true
  machine : σ.task.machine = none
  advancing : σ.advancing = .idle
  abandoning : ∀ p ∈ σ.abandoning, p = .unfinished ∨ p = .stored →
    o = .error (t₀.abandonment ref)
  claimed : σ.waiting.countP Waiting.hasClaimed = σ.task.waited.toNat
  outcome : σ.waiting.countP Waiting.hasObtained = 0 → σ.task.outcome = some o
  results : ∀ p ∈ σ.waiting, ∀ r, p = .settled r →
    r = .ok o ∨ r = .error (t₀.doubleWait ref) ∧ σ.task.waited = true

theorem Open.new {label : String} {m : Machine} :
    (new (.new label m)).Open s ref (.new label m) where
  label := rfl
  done := rfl
  waited := rfl
  waiting := fun _ hp => nomatch hp
  advancing := by
    intro m' hm'
    cases hm'
    exact ⟨m, rfl, .refl⟩
  taken := fun _ hp => nomatch hp
  abandoned := fun hp => nomatch hp

/-- When the task is marked as done, nobody has obtained anything. -/
theorem Open.close (h : σ.Open s ref t₀) (houtcome : σ.task.outcome = some o)
    (hmachine : σ.task.machine = none) {abandoning : List Abandoning}
    (habandoning : ∀ p ∈ abandoning, p = .unfinished ∨ p = .stored →
      o = .error (t₀.abandonment ref)) :
    Closed ref t₀ o ⟨{ σ.task with done := true }, .idle, abandoning, σ.waiting⟩ where
  label := h.label
  done := rfl
  machine := hmachine
  advancing := rfl
  abandoning := habandoning
  claimed := by
    simp only [h.waited, Bool.toNat_false, List.countP_eq_zero]
    intro p hp
    rcases h.waiting p hp with rfl | rfl <;> decide
  outcome := fun _ => houtcome
  results := by
    intro p hp r hr
    rcases h.waiting p hp with rfl | rfl <;> cases hr

theorem Open.fits_of_abandoning (h : σ.Open s ref t₀) {p : Abandoning} (hp : p ∈ σ.abandoning)
    (hbegun : p ≠ .begun) {t : Task} (hmachine : t.machine = σ.task.machine) :
    Fits s ref t₀ t σ.advancing := by
  obtain ⟨hidle, hnone⟩ := h.taken p hp hbegun
  rw [hidle]
  intro m hm
  rw [hmachine, hnone] at hm
  contradiction

theorem forall_mem_replace {α : Type} {P : α → Prop} {before after : List α} {a b : α}
    (h : ∀ x ∈ before ++ a :: after, P x) (hb : P b) : ∀ x ∈ before ++ b :: after, P x := by
  rw [List.forall_mem_append, List.forall_mem_cons] at h ⊢
  exact ⟨h.1, hb, h.2.2⟩

theorem Open.advance {t t' : Task} {a a' : Advancing} {abandoning : List Abandoning}
    {waiting : List Waiting} (h : Open s ref t₀ ⟨t, a, abandoning, waiting⟩)
    (hmoves : a.Moves s t t' a') :
    Open s ref t₀ ⟨t', a', abandoning, waiting⟩ ∨
      ∃ o, t'.outcome = some o ∧ Comes s ref t₀ o ∧
        Closed ref t₀ o ⟨t', a', abandoning, waiting⟩ := by
  -- Whoever gives up the task is at the beginning, for the machine is in the task or in hand.
  have hbegun : ∀ p ∈ abandoning, p = .begun := by
    intro p hp
    by_contra hne
    obtain ⟨hidle, hnone⟩ := h.taken p hp hne
    cases hmoves with
    | begin hmachine => exact absurd (hmachine.symm.trans hnone) (by simp)
    | _ => cases hidle
  have htaken : ∀ p ∈ abandoning, p ≠ .begun → a' = .idle ∧ t'.machine = none :=
    fun p hp hne => absurd (hbegun p hp) hne
  have hstored : .stored ∈ abandoning → t'.outcome = some (.error (t₀.abandonment ref)) :=
    fun hp => nomatch hbegun _ hp
  cases hmoves with
  | begin hmachine =>
      left
      have hfits := h.advancing _ hmachine
      exact ⟨h.label, h.done, h.waited, h.waiting, ⟨rfl, hfits⟩, htaken, hstored⟩
  | suspend hcarried =>
      left
      obtain ⟨-, m₀, hm₀, hcarries⟩ := h.advancing
      refine ⟨h.label, h.done, h.waited, h.waiting, ?_, htaken, hstored⟩
      intro m hm
      cases hm
      exact ⟨m₀, hm₀, hcarries.tail ⟨_, _, _, hcarried⟩⟩
  | finish hcarried =>
      left
      obtain ⟨hnone, m₀, hm₀, hcarries⟩ := h.advancing
      exact ⟨h.label, h.done, h.waited, h.waiting, ⟨hnone, .result hm₀ hcarries hcarried⟩,
        htaken, hstored⟩
  | crash hcarried =>
      left
      obtain ⟨hnone, m₀, hm₀, hcarries⟩ := h.advancing
      have hcomes : Comes s ref t₀ _ := .breakdown hm₀ hcarries hcarried
      rw [← (messages_of_label h.label ref).2.2] at hcomes
      exact ⟨h.label, h.done, h.waited, h.waiting, ⟨hnone, hcomes⟩, htaken, hstored⟩
  | store =>
      left
      obtain ⟨hnone, hcomes⟩ := h.advancing
      exact ⟨h.label, h.done, h.waited, h.waiting, ⟨hnone, _, rfl, hcomes⟩, htaken, hstored⟩
  | mark =>
      right
      obtain ⟨hnone, o, houtcome, hcomes⟩ := h.advancing
      refine ⟨o, houtcome, hcomes, h.close houtcome hnone ?_⟩
      rintro p hp (rfl | rfl) <;> exact nomatch hbegun _ hp

theorem Open.abandon {t : Task} {a : Advancing} {before after : List Abandoning}
    {p : Abandoning} {waiting : List Waiting}
    (h : Open s ref t₀ ⟨t, a, before ++ p :: after, waiting⟩) (hfree : p = .begun → a = .idle) :
    Open s ref t₀ ⟨(p.step ref t).1, a, before ++ (p.step ref t).2 :: after, waiting⟩ ∨
      ∃ o, (p.step ref t).1.outcome = some o ∧ Comes s ref t₀ o ∧
        Closed ref t₀ o ⟨(p.step ref t).1, a, before ++ (p.step ref t).2 :: after, waiting⟩ := by
  have hmem : p ∈ before ++ p :: after := List.mem_append_right _ (.head _)
  cases p with
  | begun =>
      left
      obtain rfl := hfree rfl
      refine ⟨h.label, h.done, h.waited, h.waiting, ?_, ?_, ?_⟩
      · exact fun m hm => nomatch hm
      · exact fun q _ _ => ⟨rfl, rfl⟩
      · intro hstored
        refine h.abandoned ?_
        simpa [Abandoning.step] using hstored
  | taken =>
      left
      have hdone : t.done = false := h.done
      simp only [Abandoning.step, hdone]
      refine ⟨h.label, h.done, h.waited, h.waiting, h.advancing, ?_, ?_⟩
      · exact forall_mem_replace h.taken fun _ => h.taken _ hmem nofun
      · intro hstored
        refine h.abandoned ?_
        simpa using hstored
  | unfinished =>
      left
      refine ⟨h.label, h.done, h.waited, h.waiting, ?_, ?_, ?_⟩
      · exact h.fits_of_abandoning hmem nofun rfl
      · exact forall_mem_replace h.taken fun _ => h.taken _ hmem nofun
      · intro _
        simp only [Abandoning.step, (messages_of_label h.label ref).2.1]
  | stored =>
      right
      obtain ⟨rfl, hnone⟩ := h.taken _ hmem nofun
      have houtcome := h.abandoned hmem
      exact ⟨_, houtcome, .abandonment, h.close houtcome hnone fun _ _ _ => rfl⟩
  | finished =>
      left
      exact h

/-- A task that is not done stays so, or is closed with an outcome that it can come to. -/
theorem Moves.open_or_closed (hmoves : Moves s ref σ σ') (h : σ.Open s ref t₀) :
    σ'.Open s ref t₀ ∨
      ∃ o, σ'.task.outcome = some o ∧ Comes s ref t₀ o ∧ σ'.Closed ref t₀ o := by
  cases hmoves with
  | advance hadvance => exact h.advance hadvance
  | abandon before p after hfree => exact h.abandon hfree
  | beginAbandon =>
      left
      refine ⟨h.label, h.done, h.waited, h.waiting, h.advancing, ?_, ?_⟩
      · exact List.forall_mem_cons.mpr ⟨fun hne => absurd rfl hne, h.taken⟩
      · intro hstored
        refine h.abandoned ?_
        simpa using hstored
  | beginWait =>
      left
      exact ⟨h.label, h.done, h.waited, List.forall_mem_cons.mpr ⟨Or.inl rfl, h.waiting⟩,
        h.advancing, h.taken, h.abandoned⟩
  | @wait t a abandoning before p after =>
      left
      have hwaited : t.waited = false := h.waited
      have hdone : t.done = false := h.done
      -- A wait finds that the task was not waited for and is not done, over and over again.
      rcases h.waiting p (List.mem_append_right _ (.head _)) with rfl | rfl
      · simp only [Waiting.step, hwaited]
        exact ⟨h.label, h.done, h.waited, forall_mem_replace h.waiting (Or.inr rfl),
          h.advancing, h.taken, h.abandoned⟩
      · simp only [Waiting.step, hdone]
        exact ⟨h.label, h.done, h.waited, forall_mem_replace h.waiting (Or.inl rfl),
          h.advancing, h.taken, h.abandoned⟩

/-! ## After the task is done -/

/-- A task that is done is given up: nothing is stored but what is there already. -/
theorem Closed.abandon {t : Task} {a : Advancing} {before after : List Abandoning}
    {p : Abandoning} {waiting : List Waiting}
    (h : Closed ref t₀ o ⟨t, a, before ++ p :: after, waiting⟩) :
    Closed ref t₀ o ⟨(p.step ref t).1, a, before ++ (p.step ref t).2 :: after, waiting⟩ := by
  have hmem : p ∈ before ++ p :: after := List.mem_append_right _ (.head _)
  cases p with
  | begun =>
      refine ⟨h.label, h.done, rfl, h.advancing, ?_, h.claimed, h.outcome, h.results⟩
      exact forall_mem_replace h.abandoning nofun
  | taken =>
      have hdone : t.done = true := h.done
      simp only [Abandoning.step, hdone]
      refine ⟨h.label, h.done, h.machine, h.advancing, ?_, h.claimed, h.outcome, h.results⟩
      exact forall_mem_replace h.abandoning nofun
  | unfinished =>
      have hsame := h.abandoning _ hmem (Or.inl rfl)
      refine ⟨h.label, h.done, h.machine, h.advancing, ?_, h.claimed, ?_, h.results⟩
      · exact forall_mem_replace h.abandoning fun _ => hsame
      · intro _
        simp only [Abandoning.step, (messages_of_label h.label ref).2.1, hsame]
  | stored =>
      refine ⟨h.label, rfl, h.machine, h.advancing, ?_, h.claimed, h.outcome, h.results⟩
      exact forall_mem_replace h.abandoning nofun
  | finished => exact h

/-- Where a wait has marked the task and not taken the outcome, nobody has. -/
theorem Closed.outcome_of_claimed (h : σ.Closed ref t₀ o) (hp : .claimed ∈ σ.waiting) :
    σ.task.outcome = some o := by
  refine h.outcome ?_
  obtain ⟨before, after, hwaiting⟩ := List.append_of_mem hp
  have hclaimed := h.claimed
  have hle := Bool.toNat_le σ.task.waited
  have hbefore := Waiting.countP_hasObtained_le before
  have hafter := Waiting.countP_hasObtained_le after
  rw [hwaiting, List.countP_append, List.countP_cons] at hclaimed ⊢
  change _ + (_ + 1) = _ at hclaimed
  change _ + (_ + 0) = 0
  omega

/-- A wait that has taken nothing changes nothing but its own place. -/
theorem Closed.replace {t : Task} {a : Advancing} {abandoning : List Abandoning}
    {before after : List Waiting} {p q : Waiting}
    (h : Closed ref t₀ o ⟨t, a, abandoning, before ++ p :: after⟩)
    (hclaimed : q.hasClaimed = p.hasClaimed) (hobtained : q.hasObtained = p.hasObtained)
    (hresult : ∀ r, q = .settled r → r = .error (t₀.doubleWait ref) ∧ t.waited = true) :
    Closed ref t₀ o ⟨t, a, abandoning, before ++ q :: after⟩ := by
  refine ⟨h.label, h.done, h.machine, h.advancing, h.abandoning, ?_, ?_, ?_⟩
  · rw [← h.claimed]
    simp only [List.countP_append, List.countP_cons, hclaimed]
  · intro hnone
    refine h.outcome ?_
    rw [← hnone]
    simp only [List.countP_append, List.countP_cons, hobtained]
  · exact forall_mem_replace h.results fun r hr => Or.inr (hresult r hr)

theorem Closed.wait {t : Task} {a : Advancing} {abandoning : List Abandoning}
    {before after : List Waiting} {p : Waiting}
    (h : Closed ref t₀ o ⟨t, a, abandoning, before ++ p :: after⟩) :
    Closed ref t₀ o ⟨(p.step ref t).1, a, abandoning, before ++ (p.step ref t).2 :: after⟩ := by
  have hdone : t.done = true := h.done
  have hclaimed : (before ++ p :: after).countP Waiting.hasClaimed = t.waited.toNat := h.claimed
  have hrefused : t.waited = true → ∀ r, Waiting.settled (.error (t.doubleWait ref)) = .settled r →
      r = .error (t₀.doubleWait ref) ∧ t.waited = true := by
    rintro hwaited r ⟨rfl⟩
    rw [(messages_of_label h.label ref).1]
    exact ⟨rfl, hwaited⟩
  cases p with
  | begun =>
      cases hwaited : t.waited with
      | true =>
          simp only [Waiting.step, hwaited, if_true]
          exact h.replace rfl rfl (hrefused hwaited)
      | false =>
          simp only [Waiting.step, hwaited]
          exact h.replace rfl rfl fun _ hr => nomatch hr
  | unclaimed =>
      simp only [Waiting.step, hdone, if_true]
      exact h.replace rfl rfl fun _ hr => nomatch hr
  | ended =>
      cases hwaited : t.waited with
      | true =>
          simp only [Waiting.step, hwaited, if_true]
          exact h.replace rfl rfl (hrefused hwaited)
      | false =>
          simp only [Waiting.step, hwaited, Bool.false_eq_true, if_false]
          refine ⟨h.label, h.done, h.machine, h.advancing, h.abandoning, ?_, ?_, ?_⟩
          · rw [List.countP_append, List.countP_cons, hwaited] at hclaimed
            rw [List.countP_append, List.countP_cons]
            change _ + (_ + 0) = 0 at hclaimed
            change _ + (_ + 1) = 1
            omega
          · intro hnone
            refine h.outcome ?_
            rw [← hnone]
            simp only [List.countP_append, List.countP_cons]
            rfl
          · refine forall_mem_replace (a := Waiting.ended) ?_ fun _ hr => nomatch hr
            intro p hp r hr
            exact (h.results p hp r hr).imp_right fun hrefusal => ⟨hrefusal.1, rfl⟩
  | claimed =>
      have houtcome : t.outcome = some o := h.outcome_of_claimed (List.mem_append_right _ (.head _))
      simp only [Waiting.step, houtcome, Option.getD_some]
      refine ⟨h.label, h.done, h.machine, h.advancing, h.abandoning, ?_, ?_, ?_⟩
      · rw [← h.claimed]
        simp only [List.countP_append, List.countP_cons]
        rfl
      · intro hnone
        simp [Waiting.hasObtained] at hnone
      · exact forall_mem_replace h.results fun r hr => Or.inl (Waiting.settled.inj hr).symm
  | settled r => exact h

/-- What a task that is done has come to does not change any more. -/
theorem Moves.closed (hmoves : Moves s ref σ σ') (h : σ.Closed ref t₀ o) :
    σ'.Closed ref t₀ o := by
  cases hmoves with
  | advance hadvance =>
      -- There is no machine that could be taken in hand.
      have hidle := h.advancing
      cases hadvance with
      | begin hmachine => exact absurd (hmachine.symm.trans h.machine) (by simp)
      | _ => cases hidle
  | abandon before p after hfree => exact h.abandon
  | beginAbandon =>
      exact ⟨h.label, h.done, h.machine, h.advancing,
        List.forall_mem_cons.mpr ⟨nofun, h.abandoning⟩, h.claimed, h.outcome, h.results⟩
  | beginWait =>
      refine ⟨h.label, h.done, h.machine, h.advancing, h.abandoning, ?_, ?_, ?_⟩
      · rw [← h.claimed]
        rfl
      · exact h.outcome
      · exact List.forall_mem_cons.mpr ⟨(fun _ hr => nomatch hr), h.results⟩
  | wait before p after => exact h.wait

theorem Reaches.closed (hreach : Reaches s ref σ σ') (h : σ.Closed ref t₀ o) :
    σ'.Closed ref t₀ o := by
  induction hreach with
  | refl => exact h
  | tail _ hmoves ih => exact hmoves.closed ih

/-- Wherever a task gets to, it is open, or it has come to an outcome. -/
theorem Reaches.open_or_closed (hreach : Reaches s ref σ σ') (h : σ.Open s ref t₀) :
    σ'.Open s ref t₀ ∨ ∃ o, σ'.Closed ref t₀ o := by
  induction hreach with
  | refl => exact Or.inl h
  | tail _ hmoves ih =>
      rcases ih with hopen | ⟨o, hclosed⟩
      · rcases hmoves.open_or_closed hopen with hopen | ⟨o, -, -, hclosed⟩
        · exact Or.inl hopen
        · exact Or.inr ⟨o, hclosed⟩
      · exact Or.inr ⟨o, hmoves.closed hclosed⟩

/-! ## Claiming -/

theorem Open.not_settled (h : σ.Open s ref t₀) (r : Except Failure Outcome) :
    .settled r ∉ σ.waiting := by
  intro hr
  rcases h.waiting _ hr with hr | hr <;> cases hr

theorem Open.countP_hasObtained (h : σ.Open s ref t₀) :
    σ.waiting.countP Waiting.hasObtained = 0 := by
  rw [List.countP_eq_zero]
  intro p hp
  rcases h.waiting p hp with rfl | rfl <;> decide

theorem Closed.countP_hasObtained_le (h : σ.Closed ref t₀ o) :
    σ.waiting.countP Waiting.hasObtained ≤ 1 :=
  calc σ.waiting.countP Waiting.hasObtained
    _ ≤ σ.waiting.countP Waiting.hasClaimed := Waiting.countP_hasObtained_le σ.waiting
    _ = σ.task.waited.toNat := h.claimed
    _ ≤ 1 := Bool.toNat_le _

/-- A task is done for good. At most one wait for it obtains an outcome; any other wait that is over
was refused, which happens only when one wait has marked the task for itself. Nobody obtains
anything before the task is done, and whoever has marked the task finds an outcome in it.

At the moment when the task is done it has an outcome: what its machine came to, what stands for a
breakdown, or the failure of having been given up. The wait that succeeds obtains this one, and the
task keeps it until then. -/
theorem Reaches.claims_once {label : String} {m₀ : Machine}
    (h : Reaches s ref (new (.new label m₀)) σ) :
    (∀ σ', Reaches s ref σ σ' → σ.task.done = true → σ'.task.done = true) ∧
    σ.waiting.countP Waiting.hasObtained ≤ 1 ∧
    (∀ f, .settled (.error f) ∈ σ.waiting →
      f = (Task.new label m₀).doubleWait ref ∧ σ.waiting.countP Waiting.hasClaimed = 1) ∧
    (σ.task.done = false → ∀ r, .settled r ∉ σ.waiting) ∧
    (.claimed ∈ σ.waiting → σ.task.outcome ≠ none) ∧
    (∀ σ₁, σ.task.done = false → Moves s ref σ σ₁ → σ₁.task.done = true →
      ∃ o, σ₁.task.outcome = some o ∧ Comes s ref (.new label m₀) o ∧
        ∀ σ₂, Reaches s ref σ₁ σ₂ →
          (∀ o', .settled (.ok o') ∈ σ₂.waiting → o' = o) ∧
          (σ₂.waiting.countP Waiting.hasObtained = 0 → σ₂.task.outcome = some o)) := by
  rcases h.open_or_closed Open.new with hopen | ⟨o, hclosed⟩
  · refine ⟨?_, ?_, ?_, ?_, ?_, ?_⟩
    · intro σ' _ hdone
      exact absurd (hopen.done.symm.trans hdone) (by decide)
    · rw [hopen.countP_hasObtained]
      exact Nat.zero_le 1
    · intro f hf
      exact absurd hf (hopen.not_settled _)
    · exact fun _ => hopen.not_settled
    · intro hclaimed
      rcases hopen.waiting _ hclaimed with hp | hp <;> cases hp
    · intro σ₁ _ hmoves hdone
      rcases hmoves.open_or_closed hopen with hopen₁ | ⟨o, houtcome, hcomes, hclosed⟩
      · exact absurd (hopen₁.done.symm.trans hdone) (by decide)
      · refine ⟨o, houtcome, hcomes, fun σ₂ hreach => ?_⟩
        have hclosed₂ := hreach.closed hclosed
        refine ⟨fun o' ho' => ?_, hclosed₂.outcome⟩
        rcases hclosed₂.results _ ho' _ rfl with hok | ⟨herror, -⟩
        · exact Except.ok.inj hok
        · cases herror
  · have hundone : σ.task.done ≠ false := by
      rw [hclosed.done]
      decide
    refine ⟨?_, hclosed.countP_hasObtained_le, ?_, ?_, ?_, ?_⟩
    · exact fun σ' hreach _ => (hreach.closed hclosed).done
    · intro f hf
      rcases hclosed.results _ hf _ rfl with hok | ⟨herror, hwaited⟩
      · cases hok
      · refine ⟨Except.error.inj herror, ?_⟩
        rw [hclosed.claimed, hwaited]
        rfl
    · exact fun hdone => absurd hdone hundone
    · intro hclaimed
      rw [hclosed.outcome_of_claimed hclaimed]
      exact Option.some_ne_none o
    · exact fun σ₁ hdone => absurd hdone hundone

/-- Two waits find the task done before either of them marks it. One of them obtains what the
machine came to, and the other one is refused. -/
theorem Reaches.claims_once_race :
    let s : Setting := ⟨default, default, Host.none⟩
    let t := Task.new "seven" (.ofCode World.globals ⟨[.push (.int 7)], default⟩)
    let stored : Shared :=
      ⟨{ t with machine := none, outcome := some (.ok (.int 7)) }, .stored, [], [.begun, .begun]⟩
    let done : Shared := ⟨{ stored.task with done := true }, .idle, [], stored.waiting⟩
    (∃ σ, Reaches s 0 done σ ∧
      σ.waiting = [.settled (.ok (.ok (.int 7))), .settled (.error (t.doubleWait 0))]) ∧
    ∀ σ, Reaches s 0 done σ → ∀ o, .settled (.ok o) ∈ σ.waiting → o = .ok (.int 7) := by
  intro s t stored done
  have hcarried : ∃ w m, Machine.resume s 3 default
      (.ofCode World.globals ⟨[.push (.int 7)], default⟩) = ⟨.finished, w, m⟩ ∧
      m.outcome = .ok (.int 7) := ⟨_, _, rfl, rfl⟩
  obtain ⟨w, m, hcarried, houtcome⟩ := hcarried
  have hstored : Reaches s 0 (new t) stored := by
    have hend := Advancing.Moves.finish (t := { t with machine := none }) hcarried
    rw [houtcome] at hend
    refine .head .beginWait (.head .beginWait ?_)
    exact .head (.advance (.begin rfl)) (.head (.advance hend) (.single (.advance .store)))
  have hdone : Moves s 0 stored done := .advance .mark
  obtain ⟨-, -, -, -, -, hfirst⟩ := Reaches.claims_once hstored
  obtain ⟨o, ho, -, hobtained⟩ := hfirst done rfl hdone rfl
  refine ⟨⟨⟨{ done.task with waited := true, outcome := none }, .idle, [],
    [.settled (.ok (.ok (.int 7))), .settled (.error (t.doubleWait 0))]⟩, ?_, rfl⟩, ?_⟩
  · refine .head (.wait [] .begun [.begun]) (.head (.wait [.unclaimed] .begun []) ?_)
    refine .head (.wait [] .unclaimed [.unclaimed]) (.head (.wait [.ended] .unclaimed []) ?_)
    refine .head (.wait [] .ended [.ended]) (.head (.wait [.claimed] .ended []) ?_)
    exact .single (.wait [] .claimed [.settled (.error (t.doubleWait 0))])
  · intro σ hσ o' ho'
    rw [(hobtained σ hσ).1 o' ho']
    exact (Option.some.inj ho).symm

end Shared

/-! ## The steps of the program -/

def Waiting.through (ref : TaskRef) (t : Task) : Task × Waiting :=
  (fun x => x.2.step ref x.1)^[4] (t, .begun)

def Abandoning.through (ref : TaskRef) (t : Task) : Task × Abandoning :=
  (fun x => x.2.step ref x.1)^[4] (t, .begun)

/-- A machine that waits for a task goes through its wait, and does again what it did if the task is
not done. -/
theorem Machine.evalItem_of_await {s : Setting} {w : World} {m : Machine} {i : Item}
    {rest : List Item} {stack below : List Operand} {ref : TaskRef}
    (h : i.effect s w.heap m.scopes.current stack = .await ref below) (site : Location) :
    m.evalItem s w (i :: rest) stack site =
      match Waiting.through ref (w.task ref) with
      | (t, .settled (.ok (.ok v))) =>
          (m.push (.eval rest (.value v :: below) site)).next (w.setTask ref t)
      | (t, .settled (.ok (.error f))) => m.fail (w.setTask ref t) (f.locate site)
      | (_, .settled (.error f)) => m.fail w (f.locate site)
      | _ => ⟨.blocked, w, m.push (.eval (i :: rest) stack site)⟩ := by
  simp only [evalItem, h]
  cases hwaited : (w.task ref).waited with
  | true =>
      simp [Waiting.through, Waiting.step, hwaited]
  | false =>
      cases hdone : (w.task ref).done with
      | false =>
          simp [Waiting.through, Waiting.step, hwaited, hdone]
      | true =>
          have hthrough : Waiting.through ref (w.task ref) =
              ({ w.task ref with waited := true, outcome := none },
                .settled (.ok ((w.task ref).outcome.getD (.ok .empty)))) := by
            simp [Waiting.through, Waiting.step, hwaited, hdone]
          have hclaim : w.claim ref =
              .ok (w.setTask ref { w.task ref with waited := true, outcome := none },
                (w.task ref).outcome.getD (.ok .empty)) := by
            simp [World.claim, Task.claim, hwaited]
          rw [hthrough, hclaim]
          cases (w.task ref).outcome.getD (.ok .empty) <;> rfl

theorem World.task_abandon {w : World} {ref : TaskRef} (ht : ref < w.tasks.size) :
    (w.abandon ref).task ref = (Abandoning.through ref (w.task ref)).1 := by
  have hthrough : (Abandoning.through ref (w.task ref)).1 = (w.task ref).abandoned ref := by
    cases hdone : (w.task ref).done <;>
      simp [Abandoning.through, Abandoning.step, Task.abandoned, Task.finish, Task.abandonment,
        Task.display, hdone]
  rw [hthrough]
  cases hmachine : (w.task ref).machine with
  | none =>
      rw [abandon_of_machine_none hmachine]
      exact task_setTask ht _
  | some m =>
      rw [abandon_of_machine hmachine]
      refine task_setTask ?_ _
      rw [discard, tasks_releaseAll]
      exact ht

namespace Shared

/-- Advancing a task does to it what the steps of advancing it do. -/
theorem reaches_advance {s : Setting} {w : World} {ref : TaskRef} (ht : ref < w.tasks.size)
    (fuel : Nat) : Reaches s ref (new (w.task ref)) (new ((w.advance s fuel ref).task ref)) := by
  cases hmachine : (w.task ref).machine with
  | none =>
      rw [World.advance_of_machine_none hmachine]
      exact .refl
  | some m =>
      have hbegin : Moves s ref (new (w.task ref))
          ⟨{ w.task ref with machine := none }, .working m, [], []⟩ := .advance (.begin hmachine)
      obtain ⟨new, hslots⟩ := Machine.slots_resume (s := s) fuel
        (w.setTask ref { w.task ref with machine := none }) m
      rw [World.advance_eq hmachine]
      rcases hcarried : m.resume s fuel (w.setTask ref { w.task ref with machine := none })
        with ⟨p, w₁, m₁⟩
      rw [hcarried] at hslots
      have ht₁ : ref < w₁.tasks.size :=
        (World.task_of_slots_append hslots (by rw [World.size_setTask]; exact ht)).1
      refine .head hbegin ?_
      cases p with
      | suspended =>
          rw [Carried.putBack, World.task_setTask ht₁]
          exact .single (.advance (.suspend hcarried))
      | finished =>
          rw [Carried.putBack, World.task_setTask ht₁]
          exact ((ReflTransGen.single (.advance (.finish hcarried))).tail
            (.advance .store)).tail (.advance .mark)
      | crashed message =>
          have hsize : ref < (w₁.discard m₁).tasks.size := by
            rw [World.discard, World.tasks_releaseAll]
            exact ht₁
          rw [Carried.putBack, World.task_setTask hsize]
          exact ((ReflTransGen.single (.advance (.crash hcarried))).tail
            (.advance .store)).tail (.advance .mark)

end Shared

end Statute
