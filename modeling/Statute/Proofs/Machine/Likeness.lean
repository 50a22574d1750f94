import Mathlib.Data.List.Forall2
import Statute.Proofs.Machine.Origins

/-!
# Calls from different places

A call notes down the place that it was made from, and the machine counts how many calls it is
inside of. Neither of the two makes a difference to what a step does, except that the places turn up
in failures and that a call may be nested too deep. So two machines that are alike in everything
else do the same to the world, step by step, until the deeper one meets the limit.
-/

namespace Statute

/-- Two frames are alike: they may have noted down different places for a call. -/
inductive Frame.Alike : Frame → Frame → Prop
  | same (f : Frame) : Alike f f
  | call (callee : Value) (args : List Value) (site site' : Option Location) :
      Alike (.call callee args site) (.call callee args site')
  | supply (c : Call) (site : Option Location) (rest : List Param) :
      Alike (.supply c rest) (.supply { c with site := site } rest)
  | running (c : Call) (site : Option Location) :
      Alike (.running c) (.running { c with site := site })
  | construct (cls : Class) (args : List Value) (site site' : Option Location) :
      Alike (.construct cls args site) (.construct cls args site')
  | adopt (object : ObjectRef) (cls : Class) (args : List Value) (taken : Nat)
      (site site' : Option Location) :
      Alike (.adopt object cls args taken site) (.adopt object cls args taken site')

/-- Two ways to leave are alike: failures may have different places and may have left different
calls. -/
inductive Exit.Alike : Exit → Exit → Prop
  | same (e : Exit) : Alike e e
  | failure {f f' : Failure} (hcore : f.core = f'.core) : Alike (.failWith f) (.failWith f')

inductive Signal.Alike : Signal → Signal → Prop
  | same (sig : Signal) : Alike sig sig
  | leave {e e' : Exit} (h : e.Alike e') : Alike (.leave e) (.leave e')

/-- Two machines are alike, and the second one is inside of `d` more calls. -/
structure Machine.Alike (d : Nat) (m m' : Machine) : Prop where
  frames : List.Forall₂ Frame.Alike m.frames m'.frames
  signal : m.signal.Alike m'.signal
  scopes : m'.scopes = m.scopes
  depth : m'.depth = m.depth + d

/-- Two steps go the same way and leave the same world and machines that are alike. -/
structure Reply.Alike (d : Nat) (r r' : Reply) : Prop where
  step : r'.step = r.step
  world : r'.world = r.world
  machine : r.machine.Alike d r'.machine

/-- Two steps are alike, or the second one tries to enter a call at the limit of depth. -/
def Reply.Agrees (s : Setting) (w : World) (d : Nat) (r r' : Reply) : Prop :=
  r.Alike d r' ∨ ∃ m c, s.config.recursionLimit ≤ m.depth ∧ r' = Machine.enter s w m c

namespace Machine.Alike

variable {s : Setting} {d : Nat} {m m' : Machine} {f f' : Frame}

theorem push (h : m.Alike d m') (hf : f.Alike f') : (m.push f).Alike d (m'.push f') :=
  ⟨.cons hf h.frames, h.signal, h.scopes, h.depth⟩

theorem send (h : m.Alike d m') {sig sig' : Signal} (hsig : sig.Alike sig') :
    (m.send sig).Alike d (m'.send sig') :=
  ⟨h.frames, hsig, h.scopes, h.depth⟩

theorem reply (h : m.Alike d m') (st : Step) (w : World) :
    (Reply.mk st w m).Alike d ⟨st, w, m'⟩ :=
  ⟨rfl, rfl, h⟩

theorem next (h : m.Alike d m') (w : World) : (m.next w).Alike d (m'.next w) :=
  (h.send (.same _)).reply _ w

theorem yield (h : m.Alike d m') (w : World) (v : Value) : (m.yield w v).Alike d (m'.yield w v) :=
  (h.send (.same _)).reply _ w

theorem leave (h : m.Alike d m') (w : World) {e e' : Exit} (he : e.Alike e') :
    (m.leave w e).Alike d (m'.leave w e') :=
  (h.send (.leave he)).reply _ w

theorem fail (h : m.Alike d m') (w : World) {g g' : Failure} (hcore : g.core = g'.core) :
    (m.fail w g).Alike d (m'.fail w g') :=
  h.leave w (.failure hcore)

theorem failAt (h : m.Alike d m') (w : World) (g : Failure) (site site' : Option Location) :
    (m.fail w (g.atCall site)).Alike d (m'.fail w (g.atCall site')) :=
  h.fail w ((g.core_atCall site).trans (g.core_atCall site').symm)

theorem openScope (h : m.Alike d m') (w : World) (name : String) (outer : Env)
    (vars : List (String × Value)) (hf : f.Alike f') :
    (m.openScope w name outer vars f).2.Alike d (m'.openScope w name outer vars f').2 := by
  refine ⟨.cons hf h.frames, h.signal, ?_, h.depth⟩
  simp only [Machine.openScope, h.scopes]

theorem block (h : m.Alike d m') (w : World) (name : String) (vars : List (String × Value))
    (body : Body) : (m.block w name vars body).Alike d (m'.block w name vars body) := by
  unfold Machine.block openBlock
  rw [h.scopes]
  exact (h.openScope w name m.scopes.current vars (.same _)).next _

theorem turn (h : m.Alike d m') (w : World) (name : String) (vars : List (String × Value))
    (body : Body) : (m.turn w name vars body).Alike d (m'.turn w name vars body) := by
  unfold Machine.turn openBlock
  rw [h.scopes]
  exact ((h.openScope w name m.scopes.current vars (.same _)).send (.same _)).reply _ _

theorem giveBack (h : m.Alike d m') (w : World) (hf : f.Alike f')
    (hdepth : f.isCall = true → 0 < m.depth) :
    (m'.giveBack w f').1 = (m.giveBack w f).1 ∧
      (m.giveBack w f).2.Alike d (m'.giveBack w f').2 := by
  have howns : f'.lock? = f.lock? ∧ f'.ownsScope = f.ownsScope ∧ f'.isCall = f.isCall := by
    cases hf <;> exact ⟨rfl, rfl, rfl⟩
  obtain ⟨hlock, hscope, hcall⟩ := howns
  unfold Machine.giveBack
  rw [hlock, hscope, hcall, h.scopes, h.depth]
  refine ⟨rfl, h.frames, h.signal, rfl, ?_⟩
  cases hf : f.isCall with
  | false => rfl
  | true =>
      have hpos := hdepth hf
      simp only [if_true]
      omega

/-! ## Statements -/

theorem evaluate (h : m.Alike d m') (w : World) (f : Frame) (e : Expression) :
    (m.evaluate w f e).Alike d (m'.evaluate w f e) := by
  unfold Machine.evaluate
  split
  · exact ((h.push (.same f)).push (.same _)).next w
  · exact h.fail w rfl

theorem choose (h : m.Alike d m') (w : World) (otherwise : Option Body) (branches : List Branch) :
    (m.choose w otherwise branches).Alike d (m'.choose w otherwise branches) := by
  cases branches with
  | nil =>
      cases otherwise with
      | none => exact h.next w
      | some body => exact h.block w "else" [] body
  | cons b rest =>
      obtain ⟨test, body⟩ := b
      exact h.evaluate w _ test

theorem begin (h : m.Alike d m') (w : World) (stmt : Statement) :
    (m.begin w stmt).Alike d (m'.begin w stmt) := by
  cases stmt with
  | choose branches otherwise => exact h.choose w otherwise branches
  | attempt body handlers => exact (h.push (.same _)).block w "try" [] body
  | exclusive lock body => exact (h.push (.same _)).next w
  | returnWith e =>
      cases e with
      | none => exact h.leave w (.same _)
      | some e => exact h.evaluate w _ e
  | breakOut => exact h.leave w (.same _)
  | continueOn => exact h.leave w (.same _)
  | _ => exact h.evaluate w _ _

theorem act (h : m.Alike d m') (s : Setting) (w : World) (site : Location) (v : Value)
    (action : Action) : (m.act s w site v action).Alike d (m'.act s w site v action) := by
  cases action with
  | declare name =>
      simp only [Machine.act, h.scopes]
      split
      · exact h.fail w rfl
      · exact h.next _
  | assign target =>
      simp only [Machine.act, h.scopes]
      split
      · exact h.next _
      · exact h.fail w rfl
  | print => exact h.next _
  | raise =>
      simp only [Machine.act]
      split <;> exact h.fail w rfl
  | returnWith => exact h.leave w (.same _)
  | discard => exact h.next w

theorem handle (h : m.Alike d m') (w : World) {g g' : Failure} (hcore : g.core = g'.core)
    (handlers : List Handler) : (m.handle s w g handlers).Alike d (m'.handle s w g' handlers) := by
  obtain ⟨kind, className, message, payload, location, trace⟩ := g
  obtain ⟨kind', className', message', payload', location', trace'⟩ := g'
  obtain ⟨rfl, rfl, rfl, rfl⟩ : kind = kind' ∧ className = className' ∧ message = message' ∧
      payload = payload' := by simpa [Failure.core] using hcore
  -- Neither the choice of a handler nor the object that it sees depends on the rest.
  have hfind : (handlers.find? fun k =>
        w.heap.catches k.className ⟨kind, className, message, payload, location', trace'⟩) =
      handlers.find? fun k =>
        w.heap.catches k.className ⟨kind, className, message, payload, location, trace⟩ := rfl
  unfold Machine.handle
  rw [hfind]
  split
  · exact h.fail w rfl
  · exact h.block _ "handler" _ _

/-! ## Calls -/

theorem enter (h : m.Alike d m') (s : Setting) (w : World) (c : Call) (site : Option Location) :
    (m.enter s w c).Agrees s w d (m'.enter s w { c with site := site }) := by
  by_cases hlimit : s.config.recursionLimit ≤ m'.depth
  · by_cases hown : s.config.recursionLimit ≤ m.depth
    · left
      simp only [Machine.enter, if_pos hlimit, if_pos hown]
      exact h.failAt w _ _ _
    · exact Or.inr ⟨m', _, hlimit, rfl⟩
  · left
    have hown : ¬ s.config.recursionLimit ≤ m.depth := by
      rw [h.depth] at hlimit
      omega
    simp only [Machine.enter, if_neg hlimit, if_neg hown]
    have hopen := h.openScope w c.procedure.name World.globals (callVars c) (.running c site)
    have hdeeper : Machine.Alike d
        { (m.openScope w c.procedure.name World.globals (callVars c) (.running c)).2 with
          depth := m.depth + 1 }
        { (m'.openScope w c.procedure.name World.globals (callVars c)
          (.running { c with site := site })).2 with depth := m'.depth + 1 } := by
      refine ⟨hopen.frames, hopen.signal, hopen.scopes, ?_⟩
      simp only [h.depth]
      omega
    exact (hdeeper.push (.same _)).next _

theorem supply (h : m.Alike d m') (s : Setting) (w : World) (c : Call) (site : Option Location)
    (params : List Param) :
    (m.supply s w c params).Agrees s w d (m'.supply s w { c with site := site } params) := by
  cases params with
  | nil => exact h.enter s w c site
  | cons p rest =>
      left
      simp only [Machine.supply]
      split
      · exact h.failAt w _ _ _
      · split
        · exact ((h.push (.supply c site rest)).push (.same _)).next w
        · exact h.failAt w _ _ _

theorem bind (h : m.Alike d m') (s : Setting) (w : World) (c : Call) (site : Option Location) :
    (m.bind s w c).Agrees s w d (m'.bind s w { c with site := site }) := by
  simp only [Machine.bind]
  split
  · exact Or.inl (h.failAt w _ _ _)
  · exact h.supply s w c site _

theorem call (h : m.Alike d m') (s : Setting) (w : World) (callee : Value) (args : List Value)
    (site site' : Option Location) :
    (m.call s w callee args site).Agrees s w d (m'.call s w callee args site') := by
  cases callee with
  | procedure p => exact h.bind s w ⟨p, none, args, site⟩ site'
  | method r p => exact h.bind s w ⟨p, some r, args, site⟩ site'
  | classDef c => exact Or.inl ((h.push (.construct c args site site')).next w)
  | extension e =>
      left
      simp only [Machine.call]
      split
      · exact h.yield w _
      · exact h.failAt w _ _ _
      · exact h.reply _ w
  | _ => exact Or.inl (h.failAt w _ _ _)

theorem initialise (h : m.Alike d m') (w : World) (object : ObjectRef) (cls : Class)
    (args : List Value) (taken : Nat) (site site' : Option Location) :
    (m.initialise w object cls args taken site).Alike d
      (m'.initialise w object cls args taken site') := by
  unfold Machine.initialise
  split
  · exact ((h.push (.same _)).push (.call _ args site site')).next w
  · split
    · exact h.failAt w _ _ _
    · exact h.yield w _

theorem construct (h : m.Alike d m') (w : World) (cls : Class) (args : List Value)
    (site site' : Option Location) :
    (m.construct w cls args site).Alike d (m'.construct w cls args site') := by
  unfold Machine.construct
  split
  · split
    · exact h.failAt w _ _ _
    · exact h.yield _ _
  · dsimp only
    split
    · exact h.initialise _ _ cls args 0 site site'
    · exact ((h.push (.adopt _ cls args _ site site')).push (.construct _ _ site site')).next _

/-! ## Expressions -/

theorem evalItem (h : m.Alike d m') (s : Setting) (w : World) (items : List Item)
    (stack : List Operand) (site : Location) :
    (m.evalItem s w items stack site).Alike d (m'.evalItem s w items stack site) := by
  have hgoes : ∀ (w : World) (items : List Item) (stack : List Operand),
      ((m.push (.eval items stack site)).next w).Alike d
        ((m'.push (.eval items stack site)).next w) :=
    fun w items stack => (h.push (.same _)).next w
  cases items with
  | nil =>
      simp only [Machine.evalItem]
      split
      · exact h.yield w _
      · exact h.fail w rfl
  | cons i rest =>
      simp only [Machine.evalItem, h.scopes]
      split
      · exact hgoes w _ _
      · exact ((h.push (.same _)).push (.same _)).next w
      · split
        · exact hgoes _ _ _
        · exact h.fail w rfl
      · split
        · exact h.fail w rfl
        · split
          · exact (h.push (.same _)).reply _ w
          · split
            · exact hgoes _ _ _
            · exact h.fail _ rfl
            · exact h.fail w rfl
      · exact h.fail w rfl
      · exact h.reply _ w

/-! ## Frames -/

theorem receive (h : m.Alike d m') (s : Setting) (w : World) (v : Value) (hf : f.Alike f') :
    (m.receive s w v f).Agrees s w d (m'.receive s w v f') := by
  cases hf with
  | call callee args site site' => exact Or.inl ((h.push (.call callee args site site')).next w)
  | running c site => exact Or.inl ((h.push (.running c site)).next w)
  | construct cls args site site' =>
      exact Or.inl ((h.push (.construct cls args site site')).next w)
  | supply c site rest => exact h.supply s w { c with args := c.args ++ [v] } site rest
  | adopt object cls args taken site site' =>
      exact Or.inl (h.initialise _ object cls args taken site site')
  | same =>
      cases f with
      | supply c rest => exact h.supply s w { c with args := c.args ++ [v] } c.site rest
      | act action site => exact Or.inl (h.act s w site v action)
      | branch site body rest otherwise =>
          left
          simp only [Machine.receive]
          split
          · exact h.block w "if" [] body
          · exact h.choose w otherwise rest
          · exact h.fail w rfl
      | lower var site upper body =>
          left
          simp only [Machine.receive]
          split
          · exact h.evaluate w _ upper
          · exact h.fail w rfl
      | upper var next site body =>
          left
          simp only [Machine.receive]
          split
          · exact (h.push (.same _)).next w
          · exact h.fail w rfl
      | test test body =>
          left
          simp only [Machine.receive]
          split
          · exact (h.push (.same _)).turn w "while" [] body
          · exact h.next w
          · exact h.fail w rfl
      | eval items stack site => exact Or.inl ((h.push (.same _)).next w)
      | adopt object cls args taken site =>
          exact Or.inl (h.initialise _ object cls args taken site site)
      | finish object => exact Or.inl (h.yield w _)
      | _ => exact Or.inl ((h.push (.same _)).next w)

theorem resumeFrame (h : m.Alike d m') (s : Setting) (w : World) (hf : f.Alike f')
    (hdepth : f.isCall = true → 0 < m.depth) :
    (m.resumeFrame s w f).Agrees s w d (m'.resumeFrame s w f') := by
  obtain ⟨hworld, hback⟩ := h.giveBack w hf hdepth
  cases hf with
  | call callee args site site' => exact h.call s w callee args site site'
  | running c site =>
      left
      simp only [Machine.resumeFrame, hworld]
      exact hback.yield _ _
  | construct cls args site site' => exact Or.inl (h.construct w cls args site site')
  | supply c site rest => exact h.receive s w .empty (.supply c site rest)
  | adopt object cls args taken site site' =>
      exact h.receive s w .empty (.adopt object cls args taken site site')
  | same =>
      cases f with
      | call callee args site => exact h.call s w callee args site site
      | body rest own begun =>
          left
          cases begun with
          | true => exact (h.push (.same _)).reply _ w
          | false =>
              cases rest with
              | nil =>
                  simp only [Machine.resumeFrame, hworld]
                  exact hback.next _
              | cons stmt rest => exact (h.push (.same _)).begin w stmt
      | count var next last body =>
          left
          cases next with
          | none => exact h.next w
          | some i =>
              simp only [Machine.resumeFrame]
              split
              · exact h.next w
              · exact (h.push (.same _)).turn w "repeat" _ body
      | again test body => exact Or.inl (h.evaluate w _ test)
      | guard handlers => exact Or.inl (h.next w)
      | enter lock body =>
          left
          simp only [Machine.resumeFrame]
          split
          · exact (h.push (.same _)).reply _ w
          · exact (h.push (.same _)).block _ "exclusive" [] body
      | hold lock =>
          left
          simp only [Machine.resumeFrame, hworld]
          exact hback.next _
      | eval items stack site => exact Or.inl (h.evalItem s w items stack site)
      | running c =>
          left
          simp only [Machine.resumeFrame, hworld]
          exact hback.yield _ _
      | construct cls args site => exact Or.inl (h.construct w cls args site site)
      | _ =>
          simp only [Machine.resumeFrame]
          exact h.receive s w .empty (.same _)

theorem unwind (h : m.Alike d m') (w : World) (hf : f.Alike f')
    (hdepth : f.isCall = true → 0 < m.depth) {e e' : Exit} (he : e.Alike e') :
    (m.unwind s w e f).Alike d (m'.unwind s w e' f') := by
  obtain ⟨hworld, hback⟩ := h.giveBack w hf hdepth
  have hback' : ∀ {e e' : Exit}, e.Alike e' →
      ((m.giveBack w f).2.leave (m.giveBack w f).1 e).Alike d
        ((m'.giveBack w f').2.leave (m'.giveBack w f').1 e') := by
    intro e e' he
    rw [hworld]
    exact hback.leave _ he
  cases hcall : f.call? with
  | some c =>
      obtain ⟨c', hcall'⟩ : ∃ c', f'.call? = some c' := by
        cases hf with
        | same => exact ⟨c, hcall⟩
        | supply => exact ⟨_, rfl⟩
        | running => exact ⟨_, rfl⟩
        | _ => cases hcall
      unfold Machine.unwind
      simp only [hcall, hcall']
      cases he with
      | failure hcore => exact hback' (.failure hcore)
      | same =>
          cases e with
          | breakOut => exact (h.push hf).fail w rfl
          | continueOn => exact (h.push hf).fail w rfl
          | returnWith v =>
              dsimp only
              rw [hworld]
              exact hback.yield _ v
          | failWith g => exact hback' (.failure rfl)
  | none =>
      have hcall' : f'.call? = none := by
        cases hf with
        | same => exact hcall
        | supply => cases hcall
        | running => cases hcall
        | _ => rfl
      unfold Machine.unwind
      simp only [hcall, hcall']
      cases hf with
      | same =>
          cases he with
          | failure hcore =>
              cases f with
              | guard handlers => exact h.handle w hcore handlers
              | _ => exact hback' (.failure hcore)
          | same =>
              split
              · exact h.handle w rfl _
              · split
                · exact h.next w
                · exact hback' (.same _)
              · split
                · exact (h.push (.same f)).next w
                · exact hback' (.same _)
              · exact hback' (.same _)
      | _ =>
          cases he with
          | failure hcore => exact hback' (.failure hcore)
          | same => cases e <;> exact hback' (.same _)

/-- Machines that are alike take steps that are alike, unless the second one meets the limit. -/
theorem step (h : m.Alike d m') (s : Setting) (w : World)
    (hdepth : ∀ f fs, m.frames = f :: fs → f.isCall = true → 0 < m.depth) :
    (m.step s w).Agrees s w d (m'.step s w) := by
  obtain ⟨frames, signal, scopes, depth⟩ := m
  obtain ⟨frames', signal', scopes', depth'⟩ := m'
  obtain ⟨hframes, hsignal, hscopes, hdeep⟩ := h
  cases hframes with
  | nil => exact Or.inl ⟨rfl, rfl, .nil, hsignal, hscopes, hdeep⟩
  | @cons f f' fs fs' hf hfs =>
      have hbelow : Machine.Alike d ⟨fs, .run, scopes, depth⟩ ⟨fs', .run, scopes', depth'⟩ :=
        ⟨hfs, .same _, hscopes, hdeep⟩
      have hown := hdepth f fs rfl
      cases hsignal with
      | same =>
          cases signal with
          | run => exact hbelow.resumeFrame s w hf hown
          | value v => exact hbelow.receive s w v hf
          | leave e => exact Or.inl (hbelow.unwind w hf hown (.same e))
      | leave he => exact Or.inl (hbelow.unwind w hf hown he)

end Machine.Alike

end Statute
