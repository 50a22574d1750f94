import Statute.Proofs.Machine.Discipline
import Statute.Proofs.Machine.Walk

/-!
# Locality

A step looks at the frame on top and at the innermost scopes, and at nothing below. So a machine can
be put above other frames, inside other scopes, and does there what it does on its own. A machine
above others that gets to its end has first got to its own end, and goes on from there with what it
came to.
-/

namespace Statute

namespace Machine

/-- The machine above other frames, inside other scopes. Its own root is the innermost of these. -/
def above (m : Machine) (below : List Frame) (outer : ScopeStack) : Machine :=
  ⟨m.frames ++ below, m.signal, ⟨outer.root, m.scopes.inner ++ outer.inner⟩, m.depth⟩

end Machine

/-- What a step left behind, above other frames and inside other scopes. -/
def Reply.above (r : Reply) (below : List Frame) (outer : ScopeStack) : Reply :=
  ⟨r.step, r.world, r.machine.above below outer⟩

namespace Machine

variable {s : Setting} {w : World} {m : Machine} {below : List Frame} {outer : ScopeStack}

theorem current_above (hroot : m.scopes.root = outer.current) :
    (m.above below outer).scopes.current = m.scopes.current := by
  obtain ⟨frames, signal, ⟨root, inner⟩, depth⟩ := m
  cases inner with
  | nil => exact hroot.symm
  | cons env inner => rfl

theorem giveBack_above {f : Frame} (hscope : f.ownsScope = true → m.scopes.inner ≠ []) :
    (m.above below outer).giveBack w f =
      ((m.giveBack w f).1, (m.giveBack w f).2.above below outer) := by
  obtain ⟨frames, signal, ⟨root, inner⟩, depth⟩ := m
  unfold giveBack
  cases hf : f.ownsScope with
  | false => rfl
  | true =>
      cases inner with
      | nil => exact absurd rfl (hscope hf)
      | cons env inner => rfl

theorem block_above (hroot : m.scopes.root = outer.current) (name : String)
    (vars : List (String × Value)) (body : Body) :
    (m.above below outer).block w name vars body =
      (m.block w name vars body).above below outer := by
  unfold block openBlock
  rw [current_above hroot]
  rfl

theorem turn_above (hroot : m.scopes.root = outer.current) (name : String)
    (vars : List (String × Value)) (body : Body) :
    (m.above below outer).turn w name vars body = (m.turn w name vars body).above below outer := by
  unfold turn openBlock
  rw [current_above hroot]
  rfl

theorem evaluate_above (f : Frame) (e : Expression) :
    (m.above below outer).evaluate w f e = (m.evaluate w f e).above below outer := by
  unfold evaluate
  cases e.compile <;> rfl

/-! ## Statements -/

theorem choose_above (hroot : m.scopes.root = outer.current) (otherwise : Option Body)
    (branches : List Branch) :
    (m.above below outer).choose w otherwise branches =
      (m.choose w otherwise branches).above below outer := by
  cases branches with
  | nil =>
      cases otherwise with
      | none => rfl
      | some body => exact block_above hroot "else" [] body
  | cons b rest =>
      obtain ⟨test, body⟩ := b
      exact evaluate_above _ test

theorem begin_above (hroot : m.scopes.root = outer.current) (stmt : Statement) :
    (m.above below outer).begin w stmt = (m.begin w stmt).above below outer := by
  cases stmt with
  | choose branches otherwise => exact choose_above hroot otherwise branches
  | attempt body handlers =>
      exact block_above (m := m.push (.guard handlers)) hroot "try" [] body
  | exclusive lock body => rfl
  | returnWith e =>
      cases e with
      | none => rfl
      | some e => exact evaluate_above _ e
  | breakOut => rfl
  | continueOn => rfl
  | _ => exact evaluate_above _ _

theorem act_above (hroot : m.scopes.root = outer.current) (site : Location) (v : Value)
    (action : Action) :
    (m.above below outer).act s w site v action = (m.act s w site v action).above below outer := by
  cases action with
  | declare name =>
      simp only [act, current_above hroot]
      split <;> rfl
  | assign target =>
      simp only [act, current_above hroot]
      split <;> rfl
  | raise =>
      simp only [act]
      split <;> rfl
  | _ => rfl

theorem handle_above (hroot : m.scopes.root = outer.current) (f : Failure)
    (handlers : List Handler) :
    (m.above below outer).handle s w f handlers = (m.handle s w f handlers).above below outer := by
  unfold handle
  split
  · rfl
  · exact block_above hroot "handler" _ _

/-! ## Calls and expressions -/

theorem enter_above (c : Call) :
    (m.above below outer).enter s w c = (m.enter s w c).above below outer := by
  simp only [enter]
  change (if _ ≤ m.depth then _ else _) = _
  split <;> rfl

theorem supply_above (c : Call) (params : List Param) :
    (m.above below outer).supply s w c params = (m.supply s w c params).above below outer := by
  cases params with
  | nil => exact enter_above c
  | cons p rest =>
      simp only [supply]
      split
      · rfl
      · split <;> rfl

theorem bind_above (c : Call) :
    (m.above below outer).bind s w c = (m.bind s w c).above below outer := by
  simp only [bind]
  split
  · rfl
  · exact supply_above c _

theorem call_above (callee : Value) (args : List Value) (site : Option Location) :
    (m.above below outer).call s w callee args site =
      (m.call s w callee args site).above below outer := by
  cases callee with
  | procedure p => exact bind_above _
  | method r p => exact bind_above _
  | extension e =>
      simp only [call]
      split <;> rfl
  | _ => rfl

theorem initialise_above (object : ObjectRef) (cls : Class) (args : List Value) (taken : Nat)
    (site : Option Location) :
    (m.above below outer).initialise w object cls args taken site =
      (m.initialise w object cls args taken site).above below outer := by
  unfold initialise
  split
  · rfl
  · split <;> rfl

theorem construct_above (cls : Class) (args : List Value) (site : Option Location) :
    (m.above below outer).construct w cls args site =
      (m.construct w cls args site).above below outer := by
  unfold construct
  split
  · split <;> rfl
  · simp only
    split
    · exact initialise_above _ cls args 0 site
    · rfl

theorem evalItem_above (hroot : m.scopes.root = outer.current) (items : List Item)
    (stack : List Operand) (site : Location) :
    (m.above below outer).evalItem s w items stack site =
      (m.evalItem s w items stack site).above below outer := by
  cases items with
  | nil =>
      simp only [evalItem]
      split <;> rfl
  | cons i rest =>
      simp only [evalItem, current_above hroot]
      split
      · rfl
      · rfl
      · split <;> rfl
      · split
        · rfl
        · split
          · rfl
          · split <;> rfl
      · rfl
      · rfl

/-! ## Frames -/

theorem receive_above (hroot : m.scopes.root = outer.current) (v : Value) (f : Frame) :
    (m.above below outer).receive s w v f = (m.receive s w v f).above below outer := by
  cases f with
  | act action site => exact act_above hroot site v action
  | branch site body rest otherwise =>
      simp only [receive]
      split
      · exact block_above hroot "if" [] body
      · exact choose_above hroot otherwise rest
      · rfl
  | lower var site upper body =>
      simp only [receive]
      split
      · exact evaluate_above _ upper
      · rfl
  | upper var next site body =>
      simp only [receive]
      split <;> rfl
  | test test body =>
      simp only [receive]
      split
      · exact turn_above (m := m.push (.again test body)) hroot "while" [] body
      · rfl
      · rfl
  | supply c rest => exact supply_above _ rest
  | adopt object cls args taken site => exact initialise_above object cls args taken site
  | _ => rfl

theorem resumeFrame_above {f : Frame} (hroot : m.scopes.root = outer.current)
    (hscope : f.ownsScope = true → m.scopes.inner ≠ []) :
    (m.above below outer).resumeFrame s w f = (m.resumeFrame s w f).above below outer := by
  cases f with
  | body rest own begun =>
      cases begun with
      | true => rfl
      | false =>
          cases rest with
          | nil =>
              simp only [resumeFrame, giveBack_above hscope]
              rfl
          | cons stmt rest =>
              exact begin_above (m := m.push (.body rest own true)) hroot stmt
  | count var next last body =>
      cases next with
      | none => rfl
      | some i =>
          simp only [resumeFrame]
          split
          · rfl
          · exact turn_above (m := m.push (.count var (successor? i) last body)) hroot _ _ _
  | again test body => exact evaluate_above _ test
  | guard handlers => rfl
  | enter lock body =>
      simp only [resumeFrame]
      split
      · rfl
      · exact block_above (m := m.push (.hold lock)) hroot "exclusive" [] body
  | hold lock => rfl
  | eval items stack site => exact evalItem_above hroot items stack site
  | call callee args site => exact call_above callee args site
  | running c =>
      simp only [resumeFrame, giveBack_above hscope]
      rfl
  | construct cls args site => exact construct_above cls args site
  | _ =>
      simp only [resumeFrame]
      exact receive_above hroot .empty _

theorem unwind_above {f : Frame} (hroot : m.scopes.root = outer.current)
    (hscope : f.ownsScope = true → m.scopes.inner ≠ []) (e : Exit) :
    (m.above below outer).unwind s w e f = (m.unwind s w e f).above below outer := by
  unfold unwind
  rw [giveBack_above hscope]
  split
  · rfl
  · rfl
  · rfl
  · rfl
  · split
    · exact handle_above hroot _ _
    · split <;> rfl
    · split <;> rfl
    · rfl

/-- A machine in order, above other frames, takes the step that it takes on its own. -/
theorem step_above {goal : Shape} {base : Nat} (h : m.InOrder goal base outer.current)
    (hframes : m.frames ≠ []) :
    (m.above below outer).step s w = (m.step s w).above below outer := by
  obtain ⟨frames, signal, scopes, depth⟩ := m
  cases frames with
  | nil => exact absurd rfl hframes
  | cons f fs =>
      have hroot := h.1
      have hscope := (h.stands rfl).ne_nil
      cases signal with
      | run => exact resumeFrame_above (m := ⟨fs, .run, scopes, depth⟩) hroot hscope
      | value v => exact receive_above (m := ⟨fs, .run, scopes, depth⟩) hroot v f
      | leave e => exact unwind_above (m := ⟨fs, .run, scopes, depth⟩) hroot hscope e

/-! ## Walks -/

variable {goal : Shape} {base : Nat} {w' : World} {m' : Machine} {sts : List Step}

/-- A machine in order stays in order as it walks. -/
theorem InOrder.walks {root : Env} (h : m.InOrder goal base root)
    (hwalk : Walks s w m sts w' m') : m'.InOrder goal base root := by
  induction hwalk with
  | stay w m => exact h
  | @go w w₁ w' m m₁ m' st sts hstep hst hwalk ih =>
      have hafter := h.step (s := s) (w := w)
      rw [hstep] at hafter
      rcases hafter with hafter | ⟨message, hcrash⟩
      · exact ih hafter
      · rcases hst with rfl | rfl <;> contradiction

/-- What a machine walks on its own it walks above other frames as well. -/
theorem Walks.above (hwalk : Walks s w m sts w' m') (h : m.InOrder goal base outer.current) :
    Walks s w (m.above below outer) sts w' (m'.above below outer) := by
  induction hwalk with
  | stay w m => exact .stay w _
  | @go w w₁ w' m m₁ m' st sts hstep hst hwalk ih =>
      have hframes : m.frames ≠ [] := by
        intro hnil
        rw [step_of_frames_nil hnil] at hstep
        cases hstep
        rcases hst with hst | hst <;> contradiction
      have habove : (m.above below outer).step s w = ⟨st, w₁, m₁.above below outer⟩ := by
        rw [step_above h hframes, hstep]
        rfl
      exact .go habove hst (ih (h.walks (.one hstep hst)))

/-- A machine that is alone above other frames is alone on its own. -/
theorem Alone.of_above (halone : Alone s w (m.above below outer))
    (h : m.InOrder goal base outer.current) : Alone s w m :=
  fun _ _ _ hwalk => halone _ _ _ (hwalk.above h)

/-- A machine above other frames that walks to the end of all of them has walked to its own end
first. -/
theorem exists_walks_of_above (h : m.InOrder goal base outer.current)
    (hwalk : Walks s w (m.above below outer) sts w' m') (hend : m'.frames = []) :
    ∃ sts₁ sts₂ w₁ m₁, sts = sts₁ ++ sts₂ ∧ Walks s w m sts₁ w₁ m₁ ∧ m₁.frames = [] ∧
      Walks s w₁ (m₁.above below outer) sts₂ w' m' := by
  induction sts generalizing w m with
  | nil =>
      cases hwalk
      exact ⟨[], [], _, m, rfl, .stay _ m, (List.append_eq_nil_iff.mp hend).1, .stay _ _⟩
  | cons st sts ih =>
      by_cases hframes : m.frames = []
      · exact ⟨[], st :: sts, w, m, rfl, .stay w m, hframes, hwalk⟩
      · cases hwalk with
        | go hstep hst hwalk =>
            rw [step_above h hframes] at hstep
            cases hown : m.step s w with
            | mk st₀ w₀ m₀ =>
                rw [hown] at hstep
                cases hstep
                have horder := h.walks (.one hown hst)
                obtain ⟨sts₁, sts₂, w₁, m₁, rfl, hwalk₁, hend₁, hwalk₂⟩ := ih horder hwalk
                exact ⟨_ :: sts₁, sts₂, w₁, m₁, rfl, .go hown hst hwalk₁, hend₁, hwalk₂⟩

end Machine

end Statute
