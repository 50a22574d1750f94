import Statute.Proofs.Machine.Holdings
import Statute.Proofs.Machine.Locality
import Mathlib.Logic.Relation

/-!
# Nesting of frames and scopes

A machine can be set aside after every step and find another world when it goes on. Wherever it gets
to in that way, its scopes and its depth of calls are those that its frames own, one by one and in
order, and the depth stays within the limit.

What the lowest frames own is `Machine.lowest`. It does not change as long as none of them is on
top, so when the frames above have gone, for whatever reason, the scopes and the depth are what they
were before those frames came.
-/

namespace Statute

/-- Frames, with the scopes and the depth of calls that belong to them. -/
structure Base where
  frames : List Frame
  scopes : ScopeStack
  depth : Nat

/-- What a frame owns by itself: one scope and one level of calls at most. -/
theorem Frame.Owns.alone {f : Frame} {envs envs' : List Env} {depth depth' : Nat}
    (h : f.Owns envs envs' depth depth') :
    ∃ own, envs' = own ++ envs ∧ own.length = (if f.ownsScope then 1 else 0) ∧
      depth' = depth + (if f.isCall then 1 else 0) ∧ f.Owns [] own depth depth' := by
  obtain ⟨hscopes, rfl⟩ := h
  have hdepth : (if f.isCall then depth + 1 else depth) =
      depth + (if f.isCall then 1 else 0) := by
    split <;> rfl
  split at hscopes
  · next hf =>
      obtain ⟨env, rfl⟩ := hscopes
      exact ⟨[env], rfl, by simp [hf], hdepth, by simp [hf], rfl⟩
  · next hf => exact ⟨[], hscopes, by simp [hf], hdepth, by simp [hf], rfl⟩

/-- What frames own together is counted frame by frame. -/
theorem Upholds.counts {goal k : Shape} {base depth : Nat} {fs : List Frame} {envs : List Env}
    (h : Upholds goal base k fs envs depth) :
    envs.length = fs.countP Frame.ownsScope ∧ depth = base + fs.countP Frame.isCall := by
  induction h with
  | root => exact ⟨rfl, rfl⟩
  | frame hawaits howns hbelow ih =>
      obtain ⟨own, rfl, hown, rfl, -⟩ := howns.alone
      rw [List.length_append, hown, ih.1, ih.2, List.countP_cons, List.countP_cons]
      exact ⟨Nat.add_comm _ _, Nat.add_assoc _ _ _⟩

theorem Stands.counts {goal : Shape} {base depth : Nat} {f : Frame} {fs : List Frame}
    {envs : List Env} (h : Stands goal base f fs envs depth) :
    envs.length = (f :: fs).countP Frame.ownsScope ∧
      depth = base + (f :: fs).countP Frame.isCall := by
  obtain ⟨envs₀, depth₀, howns, hbelow⟩ := h
  obtain ⟨own, rfl, hown, rfl, -⟩ := howns.alone
  obtain ⟨hscopes, rfl⟩ := hbelow.counts
  rw [List.length_append, hown, hscopes, List.countP_cons, List.countP_cons]
  exact ⟨Nat.add_comm _ _, Nat.add_assoc _ _ _⟩

namespace Machine

variable {s : Setting} {w : World} {m m' m₀ : Machine} {env : Env} {goal : Shape} {base : Nat}
  {f : Frame} {fs : List Frame}

/-- A machine as it is begun: for a body, an expression or a call. -/
inductive Fresh (env : Env) : Machine → Prop
  | body (b : Body) : Fresh env (ofBody env b)
  | code (c : Code) : Fresh env (ofCode env c)
  | call (callee : Value) (args : List Value) : Fresh env (ofCall env callee args)

/-- A machine takes a step in some world, and the host does not break down. -/
def Steps (s : Setting) (m m' : Machine) : Prop :=
  ∃ w, (m.step s w).machine = m' ∧ ∀ message, (m.step s w).step ≠ .crash message

def StepsAbove (s : Setting) (n : Nat) : Machine → Machine → Prop :=
  Relation.ReflTransGen fun m m' => n < m.frames.length ∧ m.Steps s m'

def whole (m : Machine) : Base :=
  ⟨m.frames, m.scopes, m.depth⟩

/-- The lowest `n` frames of a machine, with what is left of its scopes and of its depth of calls
when those that the frames above own are taken away. -/
def lowest (m : Machine) (n : Nat) : Base :=
  let above := m.frames.take (m.frames.length - n)
  ⟨m.frames.drop (m.frames.length - n),
    ⟨m.scopes.root, m.scopes.inner.drop (above.countP Frame.ownsScope)⟩,
    m.depth - above.countP Frame.isCall⟩

theorem lowest_length (m : Machine) : m.lowest m.frames.length = m.whole := by
  simp [lowest, whole]

/-- The lowest frames can be read off a machine that is split into what is above and what is
below. -/
theorem lowest_of_append (top : List Frame) (es : List Env) {low : List Frame} {inner : List Env}
    {depth : Nat} (hframes : m.frames = top ++ low) (hscopes : m.scopes = ⟨env, es ++ inner⟩)
    (hes : es.length = top.countP Frame.ownsScope)
    (hdepth : m.depth = depth + top.countP Frame.isCall) :
    m.lowest low.length = ⟨low, ⟨env, inner⟩, depth⟩ := by
  simp [lowest, hframes, hscopes, hdepth, ← hes]

/-! ## Machines in order -/

theorem Fresh.inOrder (h : m.Fresh env) : ∃ goal, m.InOrder goal 0 env := by
  cases h with
  | body b => exact ⟨.statement, rfl, rfl, _, _, .nothing rfl rfl _ _, .root⟩
  | code c => exact ⟨.value, inOrder_ofCode env c⟩
  | call callee args => exact ⟨.value, rfl, rfl, _, _, .nothing rfl rfl _ _, .root⟩

theorem Fresh.depth (h : m.Fresh env) : m.depth = 0 := by
  cases h <;> rfl

/-- A machine in order that has no frames left has left all that it entered. -/
theorem InOrder.of_frames_nil (h : m.InOrder goal base env) (hframes : m.frames = []) :
    m.scopes.inner = [] ∧ m.depth = base := by
  obtain ⟨frames, signal, scopes, depth⟩ := m
  change frames = [] at hframes
  subst hframes
  have hsignal := h.2
  cases signal with
  | run => exact (Upholds.of_nil hsignal).2
  | value v => exact (Upholds.of_nil hsignal).2
  | leave e =>
      cases e with
      | failWith failure => exact hsignal
      | _ => exact (Upholds.of_nil hsignal).2

theorem InOrder.eq_of_frames_nil (h : m.InOrder goal base env) (hframes : m.frames = []) :
    m = ⟨[], m.signal, ⟨env, []⟩, base⟩ := by
  obtain ⟨hinner, hdepth⟩ := h.of_frames_nil hframes
  obtain ⟨frames, signal, ⟨root, inner⟩, depth⟩ := m
  obtain rfl : frames = [] := hframes
  obtain rfl : root = env := h.1
  obtain rfl : inner = [] := hinner
  obtain rfl : depth = base := hdepth
  rfl

theorem InOrder.counts (h : m.InOrder goal base env) :
    m.scopes.inner.length = m.frames.countP Frame.ownsScope ∧
      m.depth = base + m.frames.countP Frame.isCall := by
  cases hframes : m.frames with
  | nil =>
      obtain ⟨hscopes, hdepth⟩ := h.of_frames_nil hframes
      rw [hscopes, hdepth]
      exact ⟨rfl, rfl⟩
  | cons f fs => exact (h.stands hframes).counts

/-- The frame on top of a machine in order is a machine in order by itself, above the others. -/
theorem InOrder.top (h : m.InOrder goal base env) (hframes : m.frames = f :: fs) :
    ∃ own outer depth, m = Machine.above ⟨[f], m.signal, ⟨outer.current, own⟩, m.depth⟩ fs outer ∧
      outer.root = env ∧ own.length = (if f.ownsScope then 1 else 0) ∧
      m.depth = depth + (if f.isCall then 1 else 0) ∧
      Machine.InOrder f.result depth outer.current
        ⟨[f], m.signal, ⟨outer.current, own⟩, m.depth⟩ := by
  obtain ⟨frames, signal, ⟨root, envs⟩, depth⟩ := m
  change frames = f :: fs at hframes
  subst hframes
  obtain ⟨hroot, hsignal⟩ := h
  change root = env at hroot
  subst hroot
  have horder : Machine.InOrder goal base root ⟨f :: fs, signal, ⟨root, envs⟩, depth⟩ :=
    ⟨rfl, hsignal⟩
  obtain ⟨envs₀, depth₀, howns, -⟩ := horder.stands rfl
  obtain ⟨own, henvs, hown, hdepth, halone⟩ := howns.alone
  change envs = own ++ envs₀ at henvs
  subst henvs
  refine ⟨own, ⟨root, envs₀⟩, depth₀, rfl, rfl, hown, hdepth, rfl, ?_⟩
  -- By itself the frame waits for the same, with nothing below.
  cases signal with
  | run => exact ⟨hsignal.1, _, _, halone, .root⟩
  | value v => exact .frame (Upholds.of_cons hsignal).1 halone .root
  | leave e =>
      cases e with
      | failWith failure => exact ⟨_, _, halone, .root⟩
      | _ => exact .frame (Upholds.of_cons hsignal).1 halone .root

/-! ## One step -/

theorem Steps.inOrder (h : m.Steps s m') (horder : m.InOrder goal base env) :
    m'.InOrder goal base env := by
  obtain ⟨w, rfl, hcrash⟩ := h
  rcases horder.step (s := s) (w := w) with hnext | ⟨message, hmessage⟩
  · exact hnext
  · exact absurd hmessage (hcrash message)

/-- A step takes off the frame on top and puts others in its place, with what they own. -/
theorem Steps.split (h : m.Steps s m') (horder : m.InOrder goal base env)
    (hframes : m.frames = f :: fs) :
    ∃ gs own es inner depth, m'.frames = gs ++ fs ∧
      m.scopes = ⟨env, own ++ inner⟩ ∧ m'.scopes = ⟨env, es ++ inner⟩ ∧
      own.length = (if f.ownsScope then 1 else 0) ∧ es.length = gs.countP Frame.ownsScope ∧
      m.depth = depth + (if f.isCall then 1 else 0) ∧
      m'.depth = depth + gs.countP Frame.isCall := by
  obtain ⟨w, rfl, hcrash⟩ := h
  obtain ⟨own, outer, depth, hm, hroot, hown, hdepth, htop⟩ := horder.top hframes
  have hstep : m.step s w = (Machine.step s w
      ⟨[f], m.signal, ⟨outer.current, own⟩, m.depth⟩).above fs outer := by
    conv_lhs => rw [hm]
    exact step_above htop (List.cons_ne_nil _ _)
  have hnext := Steps.inOrder ⟨w, rfl, ?_⟩ htop (s := s)
  · obtain ⟨hscopes, hcalls⟩ := hnext.counts
    refine ⟨_, own, _, outer.inner, depth, ?_, ?_, ?_, hown, hscopes, hdepth, ?_⟩
    · rw [hstep]
      rfl
    · rw [hm, ← hroot]
      rfl
    · rw [hstep, ← hroot]
      rfl
    · rw [hstep]
      exact hcalls
  · intro message
    have hsame := hcrash message
    rw [hstep] at hsame
    exact hsame

theorem begin_on_top (m : Machine) (stmt : Statement) :
    m.frames <:+ (m.begin w stmt).machine.frames ∧
      m.scopes.inner <:+ (m.begin w stmt).machine.scopes.inner := by
  -- All of the machine is below a machine that has nothing.
  let top : Machine := ⟨[], m.signal, ⟨m.scopes.current, []⟩, m.depth⟩
  have habove : (top.above m.frames m.scopes).begin w stmt =
      (top.begin w stmt).above m.frames m.scopes := begin_above rfl stmt
  change m.begin w stmt = _ at habove
  rw [habove]
  exact ⟨List.suffix_append _ _, List.suffix_append _ _⟩

/-- A frame that owns a scope is taken off, or stays in its place with that scope. -/
theorem step_of_ownsScope (hf : f.ownsScope = true) (hframes : m.frames = f :: fs) :
    (m.step s w).machine.frames = fs ∨
      ∃ g, g.ownsScope = true ∧ g :: fs <:+ (m.step s w).machine.frames ∧
        m.scopes.inner <:+ (m.step s w).machine.scopes.inner := by
  obtain ⟨frames, signal, scopes, depth⟩ := m
  change frames = f :: fs at hframes
  subst hframes
  cases f with
  | body rest own begun =>
      change own = true at hf
      subst hf
      cases signal with
      | run =>
          cases begun with
          | true => exact Or.inr ⟨.body rest true false, rfl, List.suffix_rfl, List.suffix_rfl⟩
          | false =>
              cases rest with
              | nil => exact Or.inl rfl
              | cons stmt rest =>
                  obtain ⟨hframes, hscopes⟩ := begin_on_top (w := w)
                    ⟨.body rest true true :: fs, .run, scopes, depth⟩ stmt
                  exact Or.inr ⟨.body rest true true, rfl, hframes, hscopes⟩
      | value v => exact Or.inr ⟨.body rest true begun, rfl, List.suffix_rfl, List.suffix_rfl⟩
      | leave e => cases e <;> exact Or.inl rfl
  | running c =>
      cases signal with
      | run => exact Or.inl rfl
      | value v => exact Or.inr ⟨.running c, rfl, List.suffix_rfl, List.suffix_rfl⟩
      | leave e =>
          cases e with
          | breakOut => exact Or.inr ⟨.running c, rfl, List.suffix_rfl, List.suffix_rfl⟩
          | continueOn => exact Or.inr ⟨.running c, rfl, List.suffix_rfl, List.suffix_rfl⟩
          | returnWith v => exact Or.inl rfl
          | failWith failure => exact Or.inl rfl
  | _ => contradiction

/-- A step leaves the frames below the one on top alone, and all that they own. -/
theorem Steps.lowest (h : m.Steps s m') (horder : m.InOrder goal base env) {n : Nat}
    (hn : n < m.frames.length) : m'.lowest n = m.lowest n := by
  obtain ⟨f, fs, hframes⟩ := List.exists_cons_of_length_pos (Nat.zero_lt_of_lt hn)
  obtain ⟨gs, own, es, inner, depth, hframes', hscopes, hscopes', hown, hes, hdepth, hdepth'⟩ :=
    h.split horder hframes
  obtain ⟨hcount, hcalls⟩ := horder.counts
  rw [hframes, List.countP_cons] at hcount hcalls
  -- The lowest frames and those between them and the top.
  obtain ⟨mid, low, rfl, rfl⟩ : ∃ mid low, fs = mid ++ low ∧ low.length = n := by
    refine ⟨fs.take (fs.length - n), fs.drop (fs.length - n), (List.take_append_drop _ _).symm, ?_⟩
    rw [hframes, List.length_cons] at hn
    rw [List.length_drop]
    omega
  obtain ⟨es₁, inner₁, rfl, hes₁⟩ :
      ∃ es₁ inner₁, inner = es₁ ++ inner₁ ∧ es₁.length = mid.countP Frame.ownsScope := by
    refine ⟨inner.take (mid.countP Frame.ownsScope), inner.drop (mid.countP Frame.ownsScope),
      (List.take_append_drop _ _).symm, ?_⟩
    rw [hscopes, List.length_append, hown, List.countP_append] at hcount
    rw [List.length_take]
    omega
  rw [List.countP_append] at hcalls
  have hbefore : m.lowest low.length =
      ⟨low, ⟨env, inner₁⟩, base + low.countP Frame.isCall⟩ := by
    refine lowest_of_append (f :: mid) (own ++ es₁) hframes ?_ ?_ ?_
    · rw [hscopes, List.append_assoc]
    · rw [List.length_append, hown, hes₁, List.countP_cons, Nat.add_comm]
    · rw [List.countP_cons]
      omega
  have hafter : m'.lowest low.length =
      ⟨low, ⟨env, inner₁⟩, base + low.countP Frame.isCall⟩ := by
    refine lowest_of_append (gs ++ mid) (es ++ es₁) ?_ ?_ ?_ ?_
    · rw [hframes', List.append_assoc]
    · rw [hscopes', List.append_assoc]
    · rw [List.length_append, hes, hes₁, List.countP_append]
    · rw [List.countP_append]
      omega
  rw [hbefore, hafter]

/-- The frame `g` is where the frame on top of `m` was: it keeps the scope that was owned there, and
where it owns as much, everything from there on downwards is as it was. -/
structure Continues (f g : Frame) (m : Machine) (b : Base) : Prop where
  owns : f.ownsScope = true → g.ownsScope = true
  scopes : g.ownsScope = f.ownsScope → b.scopes = m.scopes
  depth : g.isCall = f.isCall → b.depth = m.depth

theorem eq_of_suffix_append {α : Type} {x y z : List α} (h : x <:+ z ++ y)
    (hlength : x.length = y.length) : x = y :=
  (List.suffix_of_suffix_length_le h (List.suffix_append z y) hlength.le).eq_of_length hlength

/-- A step takes the frame on top off, or leaves a frame in its place. -/
theorem Steps.top (h : m.Steps s m') (horder : m.InOrder goal base env)
    (hframes : m.frames = f :: fs) :
    m'.whole = m.lowest fs.length ∨
      ∃ g, (m'.lowest (fs.length + 1)).frames = g :: fs ∧
        Continues f g m (m'.lowest (fs.length + 1)) := by
  have hlowest := h.lowest horder (n := fs.length) (by rw [hframes, List.length_cons]; omega)
  obtain ⟨gs, own, es, inner, depth, hframes', hscopes, hscopes', hown, hes, hdepth, hdepth'⟩ :=
    h.split horder hframes
  rcases List.eq_nil_or_concat gs with rfl | ⟨top, g, rfl⟩
  · left
    rw [List.nil_append] at hframes'
    rw [← hlowest, ← hframes', lowest_length]
  · right
    rw [List.concat_eq_append] at hframes' hes hdepth'
    rw [List.append_assoc, List.singleton_append] at hframes'
    rw [List.countP_append, List.countP_singleton] at hes hdepth'
    have hkeeps : f.ownsScope = true → ∃ k, k.ownsScope = true ∧ k :: fs <:+ m'.frames ∧
        m.scopes.inner <:+ m'.scopes.inner := by
      intro hf
      obtain ⟨w, rfl, -⟩ := h
      refine (step_of_ownsScope hf hframes).resolve_left fun hfs => ?_
      have hlength := congrArg List.length (hframes'.symm.trans hfs)
      rw [List.length_append, List.length_cons] at hlength
      omega
    -- The scopes of the frames above, and what the frame in question owns.
    obtain ⟨es₁, own', rfl, hes₁⟩ :
        ∃ es₁ own', es = es₁ ++ own' ∧ es₁.length = top.countP Frame.ownsScope := by
      refine ⟨es.take (top.countP Frame.ownsScope), es.drop (top.countP Frame.ownsScope),
        (List.take_append_drop _ _).symm, ?_⟩
      rw [List.length_take]
      omega
    rw [List.length_append, hes₁, Nat.add_left_cancel_iff] at hes
    rw [List.append_assoc] at hscopes'
    have hplace : m'.lowest (fs.length + 1) =
        ⟨g :: fs, ⟨env, own' ++ inner⟩, depth + if g.isCall then 1 else 0⟩ := by
      refine lowest_of_append top es₁ hframes' hscopes' hes₁ ?_
      rw [hdepth']
      omega
    rw [hplace]
    refine ⟨g, rfl, ?_, ?_, ?_⟩
    · intro hf
      obtain ⟨k, hk, hsuffix, -⟩ := hkeeps hf
      rw [hframes'] at hsuffix
      have hcons := eq_of_suffix_append hsuffix rfl
      rw [← (List.cons.inj hcons).1]
      exact hk
    · intro hsame
      rw [hsame, ← hown] at hes
      by_cases hf : f.ownsScope = true
      · obtain ⟨k, -, -, hsuffix⟩ := hkeeps hf
        rw [hscopes, hscopes'] at hsuffix
        have hinner : own ++ inner = own' ++ inner :=
          eq_of_suffix_append hsuffix (by rw [List.length_append, List.length_append, hes])
        rw [hscopes, hinner]
      · rw [if_neg hf] at hown
        rw [hscopes, List.eq_nil_of_length_eq_zero hown,
          List.eq_nil_of_length_eq_zero (hes.trans hown)]
    · intro hsame
      rw [hdepth, hsame]

/-! ## Whatever a machine gets to -/

/-- The scopes and the depth of calls of a machine are those that its frames own, and the depth is
within the limit. -/
structure Balanced (s : Setting) (env : Env) (m : Machine) : Prop where
  root : m.scopes.root = env
  scopes : m.scopes.inner.length = m.frames.countP Frame.ownsScope
  depth : m.depth = m.frames.countP Frame.isCall
  limit : m.depth ≤ s.config.recursionLimit

theorem Fresh.reached (hfresh : m₀.Fresh env) (hreach : Relation.ReflTransGen (Steps s) m₀ m) :
    ∃ goal, m.InOrder goal 0 env ∧ m.depth ≤ s.config.recursionLimit := by
  induction hreach with
  | refl =>
      obtain ⟨goal, horder⟩ := hfresh.inOrder
      refine ⟨goal, horder, ?_⟩
      rw [hfresh.depth]
      exact Nat.zero_le _
  | tail _ hstep ih =>
      obtain ⟨goal, horder, hlimit⟩ := ih
      refine ⟨goal, hstep.inOrder horder, ?_⟩
      obtain ⟨w, rfl, -⟩ := hstep
      exact step_depth_le hlimit

/-- As long as a machine has more than `n` frames, nothing happens to the lowest `n` of them and to
what they own. -/
theorem StepsAbove.lowest {n : Nat} (h : StepsAbove s n m m') (horder : m.InOrder goal base env) :
    m'.lowest n = m.lowest n ∧ m'.InOrder goal base env := by
  induction h with
  | refl => exact ⟨rfl, horder⟩
  | tail _ hstep ih =>
      obtain ⟨hlowest, hbefore⟩ := ih
      exact ⟨(hstep.2.lowest hbefore hstep.1).trans hlowest, hstep.2.inOrder hbefore⟩

/-- Wherever a machine gets to by steps, its scopes are the one it began in and one for each frame
that owns one, and its depth is the number of calls among its frames, within the limit.

The lowest frames keep what they own as long as one more frame is there, so when that frame is taken
off the scopes and the depth are what they were without it. A step takes off no more than the frame
on top, or leaves a frame in its place, which keeps the scope that was owned there. With no frame
left there is only the scope that the machine began in. -/
theorem Fresh.balanced (hfresh : m₀.Fresh env) (hreach : Relation.ReflTransGen (Steps s) m₀ m) :
    m.Balanced s env ∧
      (∀ n m', StepsAbove s n m m' →
        m'.lowest n = m.lowest n ∧ (m'.frames.length = n → m'.whole = m.lowest n)) ∧
      (∀ f fs m', m.frames = f :: fs → m.Steps s m' →
        m'.whole = m.lowest fs.length ∨
          ∃ g, (m'.lowest (fs.length + 1)).frames = g :: fs ∧
            Continues f g m (m'.lowest (fs.length + 1))) ∧
      (m.frames = [] → m.whole = ⟨[], ⟨env, []⟩, 0⟩) := by
  obtain ⟨goal, horder, hlimit⟩ := hfresh.reached hreach
  obtain ⟨hscopes, hdepth⟩ := horder.counts
  refine ⟨⟨horder.1, hscopes, by rw [hdepth, Nat.zero_add], hlimit⟩, ?_, ?_, ?_⟩
  · intro n m' habove
    have hlowest := (habove.lowest horder).1
    refine ⟨hlowest, ?_⟩
    rintro rfl
    rw [← hlowest, lowest_length]
  · intro f fs m' hframes hstep
    exact hstep.top horder hframes
  · intro hframes
    obtain ⟨hinner, hzero⟩ := horder.of_frames_nil hframes
    have hroot := horder.1
    rw [whole, hframes, hzero, ← hroot, ← hinner]

/-- A procedure whose body is a block: inside the block there are three frames and two scopes of
their own, and after it what there was before. -/
theorem Fresh.balanced_block :
    let s : Setting := ⟨default, default, Host.none⟩
    let m₀ := ofCall World.globals (.procedure ⟨"f", [], [.choose [] (some [])]⟩) []
    let inside := (Machine.step s default (Machine.step s default m₀).machine).machine
    let after := (Machine.step s default inside).machine
    (inside.frames.length = 3 ∧ inside.scopes.inner.length = 2 ∧ inside.depth = 1) ∧
      inside.Balanced s World.globals ∧ after.whole = inside.lowest 2 := by
  intro s m₀ inside after
  have hnext : ∀ message, Step.next ≠ .crash message := nofun
  have hreach : Relation.ReflTransGen (Steps s) m₀ inside :=
    .tail (.single ⟨default, rfl, hnext⟩) ⟨default, rfl, hnext⟩
  have hafter : StepsAbove s 2 inside after := .single ⟨by decide, default, rfl, hnext⟩
  obtain ⟨hbalanced, hlowest, -, -⟩ := Fresh.balanced (.call _ _) hreach
  exact ⟨⟨rfl, rfl, rfl⟩, hbalanced, (hlowest 2 after hafter).2 rfl⟩

end Machine

end Statute
