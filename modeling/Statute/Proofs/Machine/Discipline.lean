import Statute.Machine.Step

/-!
# Discipline of frames

Every frame comes to something: a statement that has ended, or a value. And every frame that is not
on top waits for one of the two. In a machine that is in order each frame waits for what the frame
above it comes to, and the scopes and the depth of calls are exactly what the frames own, one by
one.

Steps keep a machine in order. So a computation of a value ends with a value or with a failure, with
nothing left of what it entered.
-/

namespace Statute

/-- What a frame comes to, and what another one waits for. -/
inductive Shape where
  | statement
  | value
deriving DecidableEq, Repr, Inhabited

namespace Frame

/-- What a frame comes to. -/
def result : Frame → Shape
  | eval _ _ _ => .value
  | call _ _ _ => .value
  | supply _ _ => .value
  | running _ => .value
  | construct _ _ _ => .value
  | adopt _ _ _ _ _ => .value
  | finish _ => .value
  | _ => .statement

/-- What a frame waits for when it is not on top. -/
def awaits : Frame → Option Shape
  | act _ _ => some .value
  | branch _ _ _ _ => some .value
  | lower _ _ _ _ => some .value
  | upper _ _ _ _ => some .value
  | test _ _ => some .value
  | eval _ _ _ => some .value
  | supply _ _ => some .value
  | adopt _ _ _ _ _ => some .value
  | finish _ => some .value
  | enter _ _ => none
  | call _ _ _ => none
  | construct _ _ _ => none
  | _ => some .statement

/-- Whether a frame can go on without a value. -/
def goesOn : Frame → Bool
  | eval _ _ _ => true
  | f => f.awaits ≠ some .value

theorem goesOn_of_awaits {f : Frame} (h : f.awaits = some .statement) : f.goesOn = true := by
  cases f <;> simp_all [awaits, goesOn]

/-- Whatever waits for a statement and is no call is a statement itself. -/
theorem result_of_awaits {f : Frame} (h : f.awaits = some .statement) (hcall : f.call? = none) :
    f.result = .statement := by
  cases f <;> simp_all [awaits, call?, result]

theorem result_of_call? {f : Frame} {c : Call} (h : f.call? = some c) : f.result = .value := by
  cases f <;> simp_all [call?, result]

theorem owns_of_isLoop {f : Frame} (h : f.isLoop = true) :
    f.ownsScope = false ∧ f.isCall = false ∧ f.result = .statement ∧ f.goesOn = true := by
  cases f <;> simp_all [isLoop, ownsScope, isCall, result, goesOn, awaits]

/-- What is entered on top of some scopes and some depth of calls is what a frame owns. -/
structure Owns (f : Frame) (envs envs' : List Env) (depth depth' : Nat) : Prop where
  scopes : if f.ownsScope then ∃ env, envs' = env :: envs else envs' = envs
  depth : depth' = if f.isCall then depth + 1 else depth

/-- A frame that has neither a scope nor a level of calls owns nothing. -/
theorem Owns.nothing {f : Frame} (hscope : f.ownsScope = false) (hcall : f.isCall = false)
    (envs : List Env) (depth : Nat) : f.Owns envs envs depth depth := by
  refine ⟨?_, ?_⟩
  · rw [hscope]
    exact rfl
  · rw [hcall]
    rfl

end Frame

/-- Frames that wait for something of the given shape, each for what the one above it comes to, with
the scopes and the depth that they own. At the end of the frames `goal` is awaited at depth
`base`. -/
inductive Upholds (goal : Shape) (base : Nat) : Shape → List Frame → List Env → Nat → Prop
  | root : Upholds goal base goal [] [] base
  | frame {k : Shape} {f : Frame} {fs : List Frame} {envs envs' : List Env} {depth depth' : Nat}
      (hawaits : f.awaits = some k) (howns : f.Owns envs envs' depth depth')
      (hbelow : Upholds goal base f.result fs envs depth) :
      Upholds goal base k (f :: fs) envs' depth'

/-- A frame on top of others, with the scopes and the depth that all of them own. -/
def Stands (goal : Shape) (base : Nat) (f : Frame) (fs : List Frame) (envs : List Env)
    (depth : Nat) : Prop :=
  ∃ envs₀ depth₀, f.Owns envs₀ envs depth₀ depth ∧ Upholds goal base f.result fs envs₀ depth₀

theorem Stands.ne_nil {goal : Shape} {base depth : Nat} {f : Frame} {fs : List Frame}
    {envs : List Env} (h : Stands goal base f fs envs depth) (hscope : f.ownsScope = true) :
    envs ≠ [] := by
  obtain ⟨envs₀, depth₀, howns, -⟩ := h
  have hscopes := howns.scopes
  rw [if_pos hscope] at hscopes
  obtain ⟨env, rfl⟩ := hscopes
  exact List.cons_ne_nil env envs₀

theorem Upholds.of_nil {goal k : Shape} {base depth : Nat} {envs : List Env}
    (h : Upholds goal base k [] envs depth) : k = goal ∧ envs = [] ∧ depth = base := by
  cases h
  exact ⟨rfl, rfl, rfl⟩

theorem Upholds.of_cons {goal k : Shape} {base depth : Nat} {f : Frame} {fs : List Frame}
    {envs : List Env} (h : Upholds goal base k (f :: fs) envs depth) :
    f.awaits = some k ∧ Stands goal base f fs envs depth := by
  cases h with
  | frame hawaits howns hbelow => exact ⟨hawaits, _, _, howns, hbelow⟩

namespace Machine

variable {goal : Shape} {base : Nat} {root : Env} {s : Setting} {w : World} {m : Machine}

/-- The frames of a machine wait for something of the given shape. -/
structure Awaits (goal : Shape) (base : Nat) (root : Env) (k : Shape) (m : Machine) : Prop where
  root : m.scopes.root = root
  frames : Upholds goal base k m.frames m.scopes.inner m.depth

/-- A machine is in order: its frames and its signal fit together. A frame that is left because of a
failure may have waited for anything; any other way of leaving is one out of statements. -/
def InOrder (goal : Shape) (base : Nat) (root : Env) (m : Machine) : Prop :=
  m.scopes.root = root ∧
    match m.signal, m.frames with
    | .run, f :: fs => f.goesOn = true ∧ Stands goal base f fs m.scopes.inner m.depth
    | .leave (.failWith _), f :: fs => Stands goal base f fs m.scopes.inner m.depth
    | .leave (.failWith _), [] => m.scopes.inner = [] ∧ m.depth = base
    | .value _, fs => Upholds goal base .value fs m.scopes.inner m.depth
    | _, fs => Upholds goal base .statement fs m.scopes.inner m.depth

end Machine

/-- The machine after a step is in order, unless the host broke down. -/
def Reply.InOrder (goal : Shape) (base : Nat) (root : Env) (r : Reply) : Prop :=
  r.machine.InOrder goal base root ∨ ∃ message, r.step = .crash message

namespace Machine

variable {goal : Shape} {base : Nat} {root : Env} {s : Setting} {w : World} {m : Machine}

/-! ## Beginning and ending -/

theorem Awaits.next (h : m.Awaits goal base root .statement) :
    (m.next w).machine.InOrder goal base root := by
  refine ⟨h.root, ?_⟩
  obtain ⟨frames, signal, scopes, depth⟩ := m
  cases frames with
  | nil => exact h.frames
  | cons f fs =>
      obtain ⟨hawaits, hstands⟩ := h.frames.of_cons
      exact ⟨Frame.goesOn_of_awaits hawaits, hstands⟩

theorem Awaits.yield (h : m.Awaits goal base root .value) (v : Value) :
    (m.yield w v).machine.InOrder goal base root :=
  ⟨h.root, h.frames⟩

theorem Awaits.leave (h : m.Awaits goal base root .statement) (e : Exit) :
    (m.leave w e).machine.InOrder goal base root := by
  refine ⟨h.root, ?_⟩
  obtain ⟨frames, signal, scopes, depth⟩ := m
  have hframes := h.frames
  cases e with
  | failWith f =>
      cases frames with
      | nil => exact hframes.of_nil.2
      | cons g fs => exact hframes.of_cons.2
  | breakOut => exact hframes
  | continueOn => exact hframes
  | returnWith v => exact hframes

theorem Awaits.fail {k : Shape} (h : m.Awaits goal base root k) (f : Failure) :
    (m.fail w f).machine.InOrder goal base root := by
  refine ⟨h.root, ?_⟩
  obtain ⟨frames, signal, scopes, depth⟩ := m
  have hframes := h.frames
  cases frames with
  | nil => exact hframes.of_nil.2
  | cons g fs => exact hframes.of_cons.2

/-- A frame that owns nothing is put on top. -/
theorem Awaits.push {k : Shape} {f : Frame} (h : m.Awaits goal base root f.result)
    (hawaits : f.awaits = some k) (hscope : f.ownsScope = false) (hcall : f.isCall = false) :
    (m.push f).Awaits goal base root k :=
  ⟨h.root, .frame hawaits (.nothing hscope hcall _ _) h.frames⟩

/-- A frame that owns nothing is put on top and goes on. -/
theorem Awaits.push_next {f : Frame} (h : m.Awaits goal base root f.result)
    (hgoes : f.goesOn = true) (hscope : f.ownsScope = false) (hcall : f.isCall = false) :
    ((m.push f).next w).machine.InOrder goal base root :=
  ⟨h.root, hgoes, _, _, .nothing hscope hcall _ _, h.frames⟩

/-- A frame that is about to go on is put back. -/
theorem inOrder_push {f : Frame} (hroot : m.scopes.root = root) (hsignal : m.signal = .run)
    (hgoes : f.goesOn = true) (hstands : Stands goal base f m.frames m.scopes.inner m.depth) :
    (m.push f).InOrder goal base root := by
  obtain ⟨frames, signal, scopes, depth⟩ := m
  change signal = .run at hsignal
  rw [hsignal]
  exact ⟨hroot, hgoes, hstands⟩

/-- What a frame owned is given back, and the frames below wait for what it comes to. -/
theorem awaits_giveBack {f : Frame} (hroot : m.scopes.root = root)
    (h : Stands goal base f m.frames m.scopes.inner m.depth) :
    (m.giveBack w f).2.Awaits goal base root f.result := by
  obtain ⟨envs, depth, ⟨hscopes, hdepth⟩, hbelow⟩ := h
  have hinner : (if f.ownsScope then m.scopes.pop else m.scopes).inner = envs := by
    by_cases hscope : f.ownsScope
    · rw [if_pos hscope] at hscopes ⊢
      obtain ⟨env, henv⟩ := hscopes
      rw [ScopeStack.pop, henv]
      rfl
    · rw [if_neg hscope] at hscopes ⊢
      exact hscopes
  have hlevel : (if f.isCall then m.depth - 1 else m.depth) = depth := by
    by_cases hcall : f.isCall
    · rw [if_pos hcall] at hdepth ⊢
      rw [hdepth]
      rfl
    · rw [if_neg hcall] at hdepth ⊢
      exact hdepth
  refine ⟨?_, ?_⟩
  · simp only [giveBack]
    split
    · exact hroot
    · exact hroot
  · simp only [giveBack, hinner, hlevel]
    exact hbelow

/-- A frame that owns nothing leaves the frames below as they are. -/
theorem awaits_of_stands {f : Frame} (hroot : m.scopes.root = root)
    (h : Stands goal base f m.frames m.scopes.inner m.depth) (hscope : f.ownsScope = false)
    (hcall : f.isCall = false) : m.Awaits goal base root f.result := by
  obtain ⟨envs, depth, ⟨hscopes, hdepth⟩, hbelow⟩ := h
  simp only [hscope, hcall, Bool.false_eq_true, if_false] at hscopes hdepth
  rw [← hscopes, ← hdepth] at hbelow
  exact ⟨hroot, hbelow⟩

/-- A body is begun in a scope of its own. -/
theorem Awaits.block (h : m.Awaits goal base root .statement) (name : String)
    (vars : List (String × Value)) (body : Body) :
    (m.block w name vars body).machine.InOrder goal base root :=
  ⟨h.root, rfl, _, _, ⟨⟨_, rfl⟩, rfl⟩, h.frames⟩

theorem Awaits.turn (h : m.Awaits goal base root .statement) (name : String)
    (vars : List (String × Value)) (body : Body) :
    (m.turn w name vars body).machine.InOrder goal base root :=
  ⟨h.root, rfl, _, _, ⟨⟨_, rfl⟩, rfl⟩, h.frames⟩

theorem Awaits.evaluate {f : Frame} (h : m.Awaits goal base root f.result)
    (hawaits : f.awaits = some .value) (hscope : f.ownsScope = false) (hcall : f.isCall = false)
    (e : Expression) : (m.evaluate w f e).machine.InOrder goal base root := by
  unfold Machine.evaluate
  split
  · exact (h.push hawaits hscope hcall).push_next (f := .eval _ [] _) rfl rfl rfl
  · exact h.fail _

/-! ## Statements -/

theorem Awaits.choose (h : m.Awaits goal base root .statement) (otherwise : Option Body)
    (branches : List Branch) :
    (m.choose w otherwise branches).machine.InOrder goal base root := by
  cases branches with
  | nil =>
      cases otherwise with
      | none => exact h.next
      | some body => exact h.block "else" [] body
  | cons b rest =>
      obtain ⟨test, body⟩ := b
      exact h.evaluate (f := .branch test.location body rest otherwise) rfl rfl rfl test

theorem Awaits.begin (h : m.Awaits goal base root .statement) (stmt : Statement) :
    (m.begin w stmt).machine.InOrder goal base root := by
  cases stmt with
  | declare name e => exact h.evaluate (f := .act (.declare name) e.location) rfl rfl rfl e
  | assign target e => exact h.evaluate (f := .act (.assign target) e.location) rfl rfl rfl e
  | choose branches otherwise => exact h.choose otherwise branches
  | repeatFor var lower upper body =>
      exact h.evaluate (f := .lower var lower.location upper body) rfl rfl rfl lower
  | repeatWhile test body => exact h.evaluate (f := .test test body) rfl rfl rfl test
  | attempt body handlers =>
      exact (h.push (f := .guard handlers) rfl rfl rfl).block "try" [] body
  | raise e => exact h.evaluate (f := .act .raise e.location) rfl rfl rfl e
  | exclusive lock body => exact h.push_next (f := .enter lock body) rfl rfl rfl
  | print e => exact h.evaluate (f := .act .print e.location) rfl rfl rfl e
  | returnWith e =>
      cases e with
      | none => exact h.leave _
      | some e => exact h.evaluate (f := .act .returnWith e.location) rfl rfl rfl e
  | breakOut => exact h.leave _
  | continueOn => exact h.leave _
  | perform e => exact h.evaluate (f := .act .discard e.location) rfl rfl rfl e

theorem Awaits.act (h : m.Awaits goal base root .statement) (site : Location) (v : Value)
    (action : Action) : (m.act s w site v action).machine.InOrder goal base root := by
  cases action with
  | declare name =>
      simp only [Machine.act]
      split
      · exact h.fail _
      · exact h.next
  | assign target =>
      simp only [Machine.act]
      split
      · exact h.next
      · exact h.fail _
  | print => exact h.next
  | raise =>
      simp only [Machine.act]
      split
      · exact h.fail _
      · exact h.fail _
  | returnWith => exact h.leave _
  | discard => exact h.next

theorem Awaits.handle (h : m.Awaits goal base root .statement) (f : Failure)
    (handlers : List Handler) : (m.handle s w f handlers).machine.InOrder goal base root := by
  simp only [Machine.handle]
  split
  · exact h.fail f
  · exact h.block "handler" _ _

/-! ## Calls -/

theorem Awaits.enter (h : m.Awaits goal base root .value) (c : Call) :
    (m.enter s w c).machine.InOrder goal base root := by
  simp only [Machine.enter]
  split
  · exact h.fail _
  · exact ⟨h.root, rfl, _, _, .nothing rfl rfl _ _,
      .frame (f := .running c) rfl ⟨⟨_, rfl⟩, rfl⟩ h.frames⟩

theorem Awaits.supply (h : m.Awaits goal base root .value) (c : Call) (params : List Param) :
    (m.supply s w c params).machine.InOrder goal base root := by
  cases params with
  | nil => exact h.enter c
  | cons p rest =>
      simp only [Machine.supply]
      split
      · exact h.fail _
      · split
        · exact (h.push (f := .supply c rest) rfl rfl rfl).push_next (f := .eval _ [] _) rfl rfl rfl
        · exact h.fail _

theorem Awaits.bind (h : m.Awaits goal base root .value) (c : Call) :
    (m.bind s w c).machine.InOrder goal base root := by
  simp only [Machine.bind]
  split
  · exact h.fail _
  · exact h.supply c _

theorem Awaits.call (h : m.Awaits goal base root .value) (callee : Value) (args : List Value)
    (site : Option Location) : (m.call s w callee args site).InOrder goal base root := by
  cases callee with
  | procedure p => exact Or.inl (h.bind _)
  | method r p => exact Or.inl (h.bind _)
  | classDef c => exact Or.inl (h.push_next (f := .construct c args site) rfl rfl rfl)
  | extension e =>
      simp only [Machine.call]
      split
      · exact Or.inl (h.yield _)
      · exact Or.inl (h.fail _)
      · exact Or.inr ⟨_, rfl⟩
  | _ => exact Or.inl (h.fail _)

theorem Awaits.initialise (h : m.Awaits goal base root .value) (object : ObjectRef) (cls : Class)
    (args : List Value) (taken : Nat) (site : Option Location) :
    (m.initialise w object cls args taken site).machine.InOrder goal base root := by
  unfold Machine.initialise
  split
  · exact (h.push (f := .finish object) rfl rfl rfl).push_next (f := .call _ args site) rfl rfl rfl
  · split
    · exact h.fail _
    · exact h.yield _

theorem Awaits.construct (h : m.Awaits goal base root .value) (cls : Class) (args : List Value)
    (site : Option Location) :
    (m.construct w cls args site).machine.InOrder goal base root := by
  unfold Machine.construct
  split
  · split
    · exact h.fail _
    · exact h.yield _
  · simp only
    split
    · exact h.initialise _ cls args 0 site
    · exact (h.push (f := .adopt _ cls args _ site) rfl rfl rfl).push_next
        (f := .construct _ _ site) rfl rfl rfl

/-! ## Expressions -/

theorem Awaits.evalItem (h : m.Awaits goal base root .value) (hsignal : m.signal = .run)
    (items : List Item) (stack : List Operand) (site : Location) :
    (m.evalItem s w items stack site).InOrder goal base root := by
  have heval : ∀ (w' : World) (rest : List Item) (stack' : List Operand),
      ((m.push (.eval rest stack' site)).next w').machine.InOrder goal base root :=
    fun w' rest stack' => h.push_next (f := .eval rest stack' site) rfl rfl rfl
  cases items with
  | nil =>
      refine Or.inl ?_
      simp only [Machine.evalItem]
      split
      · exact h.yield _
      · exact h.fail _
  | cons i rest =>
      simp only [Machine.evalItem]
      split
      · exact Or.inl (heval _ _ _)
      · exact Or.inl ((h.push (f := .eval rest _ site) rfl rfl rfl).push_next
          (f := .call _ _ (some site)) rfl rfl rfl)
      · split
        · exact Or.inl (heval _ _ _)
        · exact Or.inl (h.fail _)
      · split
        · exact Or.inl (h.fail _)
        · split
          · exact Or.inl (inOrder_push h.root hsignal rfl ⟨_, _, .nothing rfl rfl _ _, h.frames⟩)
          · split
            · exact Or.inl (heval _ _ _)
            · exact Or.inl (h.fail _)
            · exact Or.inl (h.fail _)
      · exact Or.inl (h.fail _)
      · exact Or.inr ⟨_, rfl⟩

/-! ## Frames -/

/-- A frame receives the value that it waited for. -/
theorem inOrder_receive {f : Frame} (hroot : m.scopes.root = root)
    (hawaits : f.awaits = some .value)
    (hstands : Stands goal base f m.frames m.scopes.inner m.depth) (v : Value) :
    (m.receive s w v f).machine.InOrder goal base root := by
  cases f with
  | act action site => exact (awaits_of_stands hroot hstands rfl rfl).act site v action
  | branch site body rest otherwise =>
      have h := awaits_of_stands hroot hstands rfl rfl
      simp only [receive]
      split
      · exact h.block "if" [] body
      · exact h.choose otherwise rest
      · exact h.fail _
  | lower var site upper body =>
      have h := awaits_of_stands hroot hstands rfl rfl
      simp only [receive]
      split
      · exact h.evaluate (f := .upper var _ upper.location body) rfl rfl rfl upper
      · exact h.fail _
  | upper var next site body =>
      have h := awaits_of_stands hroot hstands rfl rfl
      simp only [receive]
      split
      · exact h.push_next (f := .count var (some next) _ body) rfl rfl rfl
      · exact h.fail _
  | test test body =>
      have h := awaits_of_stands hroot hstands rfl rfl
      simp only [receive]
      split
      · exact (h.push (f := .again test body) rfl rfl rfl).turn "while" [] body
      · exact h.next
      · exact h.fail _
  | eval items stack site =>
      have h := awaits_of_stands hroot hstands rfl rfl
      exact h.push_next (f := .eval items (.value v :: stack) site) rfl rfl rfl
  | supply c rest => exact (awaits_of_stands hroot hstands rfl rfl).supply _ rest
  | adopt object cls args taken site =>
      exact (awaits_of_stands hroot hstands rfl rfl).initialise object cls args taken site
  | finish object => exact (awaits_of_stands hroot hstands rfl rfl).yield _
  | _ => simp [Frame.awaits] at hawaits

/-- A frame goes on by itself. -/
theorem inOrder_resumeFrame {f : Frame} (hroot : m.scopes.root = root) (hsignal : m.signal = .run)
    (hgoes : f.goesOn = true) (hstands : Stands goal base f m.frames m.scopes.inner m.depth) :
    (m.resumeFrame s w f).InOrder goal base root := by
  cases f with
  | body rest own begun =>
      refine Or.inl ?_
      -- What is left of a body owns what the body owned.
      have hrest : ∀ rest' begun',
          Stands goal base (.body rest' own begun') m.frames m.scopes.inner m.depth := by
        intro rest' begun'
        obtain ⟨envs, depth, howns, hbelow⟩ := hstands
        exact ⟨envs, depth, ⟨howns.scopes, howns.depth⟩, hbelow⟩
      cases begun with
      | true => exact inOrder_push hroot hsignal rfl (hrest rest false)
      | false =>
          cases rest with
          | nil => exact (awaits_giveBack (w := w) hroot hstands).next
          | cons stmt rest =>
              obtain ⟨envs, depth, howns, hbelow⟩ := hrest rest true
              exact Awaits.begin (m := m.push (.body rest own true))
                ⟨hroot, .frame rfl howns hbelow⟩ stmt
  | count var next last body =>
      have h := awaits_of_stands hroot hstands rfl rfl
      refine Or.inl ?_
      cases next with
      | none => exact h.next
      | some i =>
          simp only [resumeFrame]
          split
          · exact h.next
          · exact (h.push (f := .count var (successor? i) last body) rfl rfl rfl).turn _ _ _
  | again test body =>
      have h := awaits_of_stands hroot hstands rfl rfl
      exact Or.inl (h.evaluate (f := .test test body) rfl rfl rfl test)
  | guard handlers => exact Or.inl (awaits_of_stands hroot hstands rfl rfl).next
  | enter lock body =>
      have h := awaits_of_stands hroot hstands rfl rfl
      simp only [resumeFrame]
      split
      · exact Or.inl (inOrder_push hroot hsignal rfl hstands)
      · exact Or.inl ((h.push (f := .hold lock) rfl rfl rfl).block "exclusive" [] body)
  | hold lock => exact Or.inl (awaits_giveBack (w := w) hroot hstands).next
  | eval items stack site =>
      exact (awaits_of_stands hroot hstands rfl rfl).evalItem hsignal items stack site
  | call callee args site => exact (awaits_of_stands hroot hstands rfl rfl).call callee args site
  | running c => exact Or.inl ((awaits_giveBack (w := w) hroot hstands).yield .empty)
  | construct cls args site =>
      exact Or.inl ((awaits_of_stands hroot hstands rfl rfl).construct cls args site)
  | _ => simp [Frame.goesOn, Frame.awaits] at hgoes

/-- A frame is left: because of a failure, or because a statement above it was left. -/
theorem inOrder_unwind {f : Frame} {e : Exit} (hroot : m.scopes.root = root)
    (hexit : (∃ failure, e = .failWith failure) ∨ f.awaits = some .statement)
    (hstands : Stands goal base f m.frames m.scopes.inner m.depth) :
    (m.unwind s w e f).machine.InOrder goal base root := by
  have hback := awaits_giveBack (w := w) hroot hstands
  have hleave : f.call? = none →
      (Machine.leave (m.giveBack w f).1 (m.giveBack w f).2 e).machine.InOrder goal base root := by
    intro hcall
    rcases hexit with ⟨failure, rfl⟩ | hawaits
    · exact hback.fail failure
    · rw [Frame.result_of_awaits hawaits hcall] at hback
      exact hback.leave e
  unfold unwind
  split
  · exact ⟨hroot, hstands⟩
  · exact ⟨hroot, hstands⟩
  · next hcall =>
      rw [Frame.result_of_call? hcall] at hback
      exact hback.yield _
  · exact hback.fail _
  · next hcall =>
      split
      · exact (awaits_of_stands hroot hstands rfl rfl).handle _ _
      · split
        · next hloop =>
            obtain ⟨hscope, hlevel, hresult, -⟩ := Frame.owns_of_isLoop hloop
            have hbelow := awaits_of_stands hroot hstands hscope hlevel
            rw [hresult] at hbelow
            exact hbelow.next
        · exact hleave hcall
      · split
        · next hloop =>
            obtain ⟨hscope, hlevel, -, hgoes⟩ := Frame.owns_of_isLoop hloop
            exact (awaits_of_stands hroot hstands hscope hlevel).push_next hgoes hscope hlevel
        · exact hleave hcall
      · exact hleave hcall

theorem InOrder.stands {f : Frame} {fs : List Frame} (h : m.InOrder goal base root)
    (hframes : m.frames = f :: fs) : Stands goal base f fs m.scopes.inner m.depth := by
  obtain ⟨frames, signal, scopes, depth⟩ := m
  change frames = f :: fs at hframes
  subst hframes
  have hsignal := h.2
  cases signal with
  | run => exact hsignal.2
  | value v => exact (Upholds.of_cons hsignal).2
  | leave e =>
      cases e with
      | failWith failure => exact hsignal
      | _ => exact (Upholds.of_cons hsignal).2

/-- A step keeps a machine in order, unless the host breaks down. -/
theorem InOrder.step (h : m.InOrder goal base root) :
    (m.step s w).InOrder goal base root := by
  obtain ⟨frames, signal, scopes, depth⟩ := m
  obtain ⟨hroot, h⟩ := h
  cases frames with
  | nil => exact Or.inl ⟨hroot, h⟩
  | cons f fs =>
      cases signal with
      | run => exact inOrder_resumeFrame (m := ⟨fs, .run, scopes, depth⟩) hroot rfl h.1 h.2
      | value v =>
          obtain ⟨hawaits, hstands⟩ := Upholds.of_cons h
          exact Or.inl (inOrder_receive (m := ⟨fs, .run, scopes, depth⟩) hroot hawaits hstands v)
      | leave e =>
          refine Or.inl (inOrder_unwind (m := ⟨fs, .run, scopes, depth⟩) hroot ?_ ?_)
          · cases e with
            | failWith failure => exact Or.inl ⟨failure, rfl⟩
            | _ => exact Or.inr (Upholds.of_cons h).1
          · exact InOrder.stands (m := ⟨f :: fs, .leave e, scopes, depth⟩) ⟨hroot, h⟩ rfl

/-- A machine that evaluates a compiled expression begins in order. -/
theorem inOrder_ofCode (env : Env) (c : Code) : (ofCode env c).InOrder .value 0 env :=
  ⟨rfl, rfl, _, _, .nothing rfl rfl _ _, .root⟩

/-- A computation of a value that is in order and has no frames left ended with a value or with a
failure, and has left all that it entered. -/
theorem InOrder.signal_of_nil (h : m.InOrder .value base root) (hframes : m.frames = []) :
    ((∃ v, m.signal = .value v) ∨ ∃ f, m.signal = .leave (.failWith f)) ∧
      m.scopes = ⟨root, []⟩ ∧ m.depth = base := by
  obtain ⟨frames, signal, ⟨root', inner⟩, depth⟩ := m
  change frames = [] at hframes
  subst hframes
  obtain ⟨hroot, h⟩ := h
  change root' = root at hroot
  subst hroot
  cases signal with
  | run =>
      have hgoal := (Upholds.of_nil h).1
      contradiction
  | value v =>
      obtain ⟨-, hinner, hdepth⟩ := Upholds.of_nil h
      change inner = [] at hinner
      subst hinner
      exact ⟨Or.inl ⟨v, rfl⟩, rfl, hdepth⟩
  | leave e =>
      cases e with
      | failWith f =>
          obtain ⟨hinner, hdepth⟩ := h
          change inner = [] at hinner
          subst hinner
          exact ⟨Or.inr ⟨f, rfl⟩, rfl, hdepth⟩
      | _ =>
          have hgoal := (Upholds.of_nil h).1
          contradiction

end Machine

end Statute
