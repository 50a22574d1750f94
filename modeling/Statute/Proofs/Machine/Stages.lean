import Statute.Proofs.Machine.Discipline

/-!
# Stages of statements

What a frame carries out is written somewhere. A frame that belongs to a statement is a stage of
that statement; it stands on what is left of the body that the statement is written in, and this
body is the one that a call runs, the one that the machine began with, or one inside a statement
further below.

A call that waits for defaults has the arguments that it has to be given, and the parameters that
remain are those from the next one on.
-/

namespace Statute

/-- The bodies right inside a statement. -/
def Statement.bodies : Statement → List Body
  | .choose branches otherwise => branches.map Branch.body ++ otherwise.toList
  | .repeatFor _ _ _ body => [body]
  | .repeatWhile _ body => [body]
  | .attempt body handlers => body :: handlers.map Handler.body
  | .exclusive _ body => [body]
  | _ => []

/-- A frame is a stage of carrying out a statement. A branch that waits for its test is one of the
branches of its statement. -/
inductive Stage : Statement → Frame → Prop
  | declare (name : String) (e : Expression) :
      Stage (.declare name e) (.act (.declare name) e.location)
  | assign (target : Target) (e : Expression) :
      Stage (.assign target e) (.act (.assign target) e.location)
  | raise (e : Expression) : Stage (.raise e) (.act .raise e.location)
  | print (e : Expression) : Stage (.print e) (.act .print e.location)
  | returnWith (e : Expression) : Stage (.returnWith (some e)) (.act .returnWith e.location)
  | perform (e : Expression) : Stage (.perform e) (.act .discard e.location)
  | branch (tried : List Branch) (test : Expression) (body : Body) (rest : List Branch)
      (otherwise : Option Body) :
      Stage (.choose (tried ++ .mk test body :: rest) otherwise)
        (.branch test.location body rest otherwise)
  | lower (var : Option String) (lower upper : Expression) (body : Body) :
      Stage (.repeatFor var lower upper body) (.lower var lower.location upper body)
  | upper (var : Option String) (lower upper : Expression) (body : Body) (next : Int64) :
      Stage (.repeatFor var lower upper body) (.upper var next upper.location body)
  | count (var : Option String) (lower upper : Expression) (body : Body) (next : Option Int64)
      (last : Int64) : Stage (.repeatFor var lower upper body) (.count var next last body)
  | test (test : Expression) (body : Body) : Stage (.repeatWhile test body) (.test test body)
  | again (test : Expression) (body : Body) : Stage (.repeatWhile test body) (.again test body)
  | guard (body : Body) (handlers : List Handler) :
      Stage (.attempt body handlers) (.guard handlers)
  | enter (lock : LockRef) (body : Body) : Stage (.exclusive lock body) (.enter lock body)
  | hold (lock : LockRef) (body : Body) : Stage (.exclusive lock body) (.hold lock)

/-- A call has been given as many arguments as its frame promises. -/
def Frame.Supplied : Frame → Prop
  | .supply c rest =>
      c.procedure.required ≤ c.args.length ∧ c.args.length < c.procedure.params.length ∧
        rest = c.procedure.params.drop (c.args.length + 1)
  | .running c => c.args.length = c.procedure.params.length
  | _ => True

/-- The body that is carried out right above some frames. -/
inductive Encloses (start : Body → Prop) : List Frame → Body → Prop
  | start {b : Body} (hstart : start b) : Encloses start [] b
  | call (c : Call) (fs : List Frame) : Encloses start (.running c :: fs) c.procedure.body
  | inside {fs : List Frame} {b rest sub : Body} {stmt : Statement} {own : Bool}
      (hbelow : Encloses start fs b) (hwritten : (stmt :: rest) <:+ b)
      (hsub : sub ∈ stmt.bodies) : Encloses start (.body rest own true :: fs) sub
  | stage {f : Frame} {fs : List Frame} {b rest sub : Body} {stmt : Statement} {own : Bool}
      (hbelow : Encloses start fs b) (hwritten : (stmt :: rest) <:+ b) (hstage : Stage stmt f)
      (hsub : sub ∈ stmt.bodies) : Encloses start (f :: .body rest own true :: fs) sub

/-- Every frame stands where what it carries out is written. -/
inductive Placed (start : Body → Prop) : List Frame → Prop
  | nil : Placed start []
  | body {fs : List Frame} {b rest : Body} {own begun : Bool} (hbelow : Placed start fs)
      (hencloses : Encloses start fs b) (hwritten : rest <:+ b) :
      Placed start (.body rest own begun :: fs)
  | stage {f : Frame} {fs : List Frame} {b rest : Body} {stmt : Statement} {own : Bool}
      (hbelow : Placed start (.body rest own true :: fs)) (hencloses : Encloses start fs b)
      (hwritten : (stmt :: rest) <:+ b) (hstage : Stage stmt f) :
      Placed start (f :: .body rest own true :: fs)
  | other {f : Frame} {fs : List Frame} (hbelow : Placed start fs) (hvalue : f.result = .value)
      (hsupplied : f.Supplied) : Placed start (f :: fs)

variable {start : Body → Prop} {f : Frame} {fs : List Frame}

theorem Placed.tail (h : Placed start (f :: fs)) : Placed start fs := by
  cases h with
  | body hbelow => exact hbelow
  | stage hbelow => exact hbelow
  | other hbelow => exact hbelow

theorem Placed.supplied (h : Placed start (f :: fs)) : f.Supplied := by
  cases h with
  | body => trivial
  | stage _ _ _ hstage => cases hstage <;> trivial
  | other _ _ hsupplied => exact hsupplied

/-- Below a frame of a statement is what is left of the body that the statement is written in. -/
theorem Placed.of_statement (h : Placed start (f :: fs)) (hstatement : f.result = .statement)
    (hbody : ∀ rest own begun, f ≠ .body rest own begun) :
    ∃ stmt rest own b fs', fs = .body rest own true :: fs' ∧ Encloses start fs' b ∧
      (stmt :: rest) <:+ b ∧ Stage stmt f := by
  cases h with
  | body => exact absurd rfl (hbody _ _ _)
  | stage _ hencloses hwritten hstage => exact ⟨_, _, _, _, _, rfl, hencloses, hwritten, hstage⟩
  | other _ hvalue => rw [hvalue] at hstatement; contradiction

theorem Placed.of_body {rest : Body} {own begun : Bool}
    (h : Placed start (.body rest own begun :: fs)) :
    Placed start fs ∧ ∃ b, Encloses start fs b ∧ rest <:+ b := by
  cases h with
  | body hbelow hencloses hwritten => exact ⟨hbelow, _, hencloses, hwritten⟩
  | stage _ _ _ hstage => cases hstage
  | other _ hvalue => contradiction

/-- A body inside a statement begins right above what is left of the body around it. -/
theorem Placed.block {b rest sub : Body} {stmt : Statement} {own own' begun : Bool}
    (h : Placed start (.body rest own true :: fs)) (hencloses : Encloses start fs b)
    (hwritten : (stmt :: rest) <:+ b) (hsub : sub ∈ stmt.bodies) :
    Placed start (.body sub own' begun :: .body rest own true :: fs) :=
  .body h (.inside hencloses hwritten hsub) List.suffix_rfl

/-- A body inside a statement begins right above a stage of the statement. -/
theorem Placed.blockAbove {b rest sub : Body} {stmt : Statement} {own own' begun : Bool}
    (h : Placed start (.body rest own true :: fs)) (hencloses : Encloses start fs b)
    (hwritten : (stmt :: rest) <:+ b) (hstage : Stage stmt f) (hsub : sub ∈ stmt.bodies) :
    Placed start (.body sub own' begun :: f :: .body rest own true :: fs) :=
  .body (.stage h hencloses hwritten hstage) (.stage hencloses hwritten hstage hsub)
    List.suffix_rfl

namespace Machine

variable {s : Setting} {w : World} {m : Machine} {b rest : Body} {stmt : Statement} {own : Bool}

theorem placed_evaluate (h : Placed start m.frames) (hf : Placed start (f :: m.frames))
    (e : Expression) : Placed start (m.evaluate w f e).machine.frames := by
  unfold evaluate
  split
  · exact .other hf rfl trivial
  · exact h

/-! ## Statements -/

theorem placed_choose (hframes : m.frames = .body rest own true :: fs)
    (h : Placed start (.body rest own true :: fs)) (hencloses : Encloses start fs b)
    (tried : List Branch) {branches : List Branch} {otherwise : Option Body}
    (hwritten : (.choose (tried ++ branches) otherwise :: rest) <:+ b) :
    Placed start (m.choose w otherwise branches).machine.frames := by
  have hm : Placed start m.frames := by
    rw [hframes]
    exact h
  cases branches with
  | nil =>
      cases otherwise with
      | none => exact hm
      | some body =>
          change Placed start (.body body true false :: m.frames)
          rw [hframes]
          exact h.block hencloses hwritten (by simp [Statement.bodies])
  | cons br branches =>
      obtain ⟨test, body⟩ := br
      refine placed_evaluate hm ?_ test
      rw [hframes]
      exact .stage h hencloses hwritten (.branch tried test body branches otherwise)

/-- The first statement of what is left of a body is begun. -/
theorem placed_begin (hframes : m.frames = .body rest own true :: fs)
    (h : Placed start (.body rest own true :: fs)) (hencloses : Encloses start fs b)
    (hwritten : (stmt :: rest) <:+ b) : Placed start (m.begin w stmt).machine.frames := by
  have hm : Placed start m.frames := by
    rw [hframes]
    exact h
  have hevaluate : ∀ {f : Frame} (e : Expression), Stage stmt f →
      Placed start (m.evaluate w f e).machine.frames := by
    intro f e hstage
    refine placed_evaluate hm ?_ e
    rw [hframes]
    exact .stage h hencloses hwritten hstage
  cases stmt with
  | declare name e => exact hevaluate e (.declare name e)
  | assign target e => exact hevaluate e (.assign target e)
  | choose branches otherwise =>
      exact placed_choose hframes h hencloses [] hwritten
  | repeatFor var lower upper body => exact hevaluate lower (.lower var lower upper body)
  | repeatWhile test body => exact hevaluate test (.test test body)
  | attempt body handlers =>
      change Placed start (.body body true false :: .guard handlers :: m.frames)
      rw [hframes]
      exact h.blockAbove hencloses hwritten (.guard body handlers) (.head _)
  | raise e => exact hevaluate e (.raise e)
  | exclusive lock body =>
      change Placed start (.enter lock body :: m.frames)
      rw [hframes]
      exact .stage h hencloses hwritten (.enter lock body)
  | print e => exact hevaluate e (.print e)
  | returnWith e =>
      cases e with
      | none => exact hm
      | some e => exact hevaluate e (.returnWith e)
  | breakOut => exact hm
  | continueOn => exact hm
  | perform e => exact hevaluate e (.perform e)

theorem placed_act (h : Placed start m.frames) (site : Location) (v : Value) (action : Action) :
    Placed start (m.act s w site v action).machine.frames := by
  have hframes : (m.act s w site v action).machine.frames = m.frames := by
    cases action with
    | declare name =>
        simp only [act]
        split <;> rfl
    | assign target =>
        simp only [act]
        split <;> rfl
    | raise =>
        simp only [act]
        split <;> rfl
    | _ => rfl
  rw [hframes]
  exact h

/-! ## Calls and construction -/

theorem placed_enter (h : Placed start m.frames) {c : Call}
    (hargs : c.args.length = c.procedure.params.length) :
    Placed start (m.enter s w c).machine.frames := by
  simp only [enter]
  split
  · exact h
  · exact .body (.other h rfl hargs) (.call c m.frames) List.suffix_rfl

/-- The parameters that remain are those that no argument was given for. -/
theorem placed_supply (h : Placed start m.frames) {c : Call} {params : List Param}
    (hrequired : c.procedure.required ≤ c.args.length)
    (hle : c.args.length ≤ c.procedure.params.length)
    (hparams : params = c.procedure.params.drop c.args.length) :
    Placed start (m.supply s w c params).machine.frames := by
  have hlength := congrArg List.length hparams
  rw [List.length_drop] at hlength
  cases params with
  | nil =>
      rw [List.length_nil] at hlength
      exact placed_enter h (by omega)
  | cons p rest =>
      rw [List.length_cons] at hlength
      simp only [supply]
      split
      · exact h
      · split
        · refine .other (.other h rfl ⟨hrequired, by omega, ?_⟩) rfl trivial
          rw [← List.tail_drop, ← hparams]
          rfl
        · exact h

theorem placed_bind (h : Placed start m.frames) (c : Call) :
    Placed start (m.bind s w c).machine.frames := by
  simp only [bind]
  split
  · exact h
  · next hcount =>
      obtain ⟨hrequired, hle⟩ := not_or.mp hcount
      exact placed_supply h (Nat.le_of_not_lt hrequired) (Nat.le_of_not_lt hle) rfl

theorem placed_call (h : Placed start m.frames) (callee : Value) (args : List Value)
    (site : Option Location) : Placed start (m.call s w callee args site).machine.frames := by
  cases callee with
  | procedure p => exact placed_bind h _
  | method r p => exact placed_bind h _
  | classDef c => exact .other h rfl trivial
  | extension e =>
      simp only [call]
      split <;> exact h
  | _ => exact h

theorem placed_initialise (h : Placed start m.frames) (object : ObjectRef) (cls : Class)
    (args : List Value) (taken : Nat) (site : Option Location) :
    Placed start (m.initialise w object cls args taken site).machine.frames := by
  unfold initialise
  split
  · exact .other (.other h rfl trivial) rfl trivial
  · split <;> exact h

theorem placed_construct (h : Placed start m.frames) (cls : Class) (args : List Value)
    (site : Option Location) : Placed start (m.construct w cls args site).machine.frames := by
  unfold construct
  split
  · split <;> exact h
  · simp only
    split
    · exact placed_initialise h _ cls args 0 site
    · exact .other (.other h rfl trivial) rfl trivial

theorem placed_evalItem (h : Placed start m.frames) (items : List Item) (stack : List Operand)
    (site : Location) : Placed start (m.evalItem s w items stack site).machine.frames := by
  have heval : ∀ rest stack', Placed start (.eval rest stack' site :: m.frames) :=
    fun rest stack' => .other h rfl trivial
  cases items with
  | nil =>
      simp only [evalItem]
      split <;> exact h
  | cons i rest =>
      simp only [evalItem]
      split
      · exact heval _ _
      · exact .other (heval _ _) rfl trivial
      · split
        · exact heval _ _
        · exact h
      · split
        · exact h
        · split
          · exact heval _ _
          · split
            · exact heval _ _
            · exact h
            · exact h
      · exact h
      · exact h

/-! ## Frames -/

theorem placed_receive (h : Placed start (f :: m.frames)) (v : Value) :
    Placed start (m.receive s w v f).machine.frames := by
  have hbelow := h.tail
  cases f with
  | act action site => exact placed_act hbelow site v action
  | branch site body rest otherwise =>
      obtain ⟨stmt, rest', own, b, fs, hfs, hencloses, hwritten, hstage⟩ :=
        h.of_statement rfl (by simp)
      cases hstage with
      | branch tried test =>
          rw [hfs] at hbelow
          simp only [receive]
          split
          · change Placed start (.body body true false :: m.frames)
            rw [hfs]
            exact hbelow.block hencloses hwritten (by simp [Statement.bodies, Branch.body])
          · refine placed_choose hfs hbelow hencloses (tried ++ [.mk test body]) ?_
            rw [List.append_assoc]
            exact hwritten
          · change Placed start m.frames
            rw [hfs]
            exact hbelow
  | lower var site upper body =>
      obtain ⟨stmt, rest', own, b, fs, hfs, hencloses, hwritten, hstage⟩ :=
        h.of_statement rfl (by simp)
      cases hstage with
      | lower var lower =>
          simp only [receive]
          split
          · next lo _ =>
              refine placed_evaluate hbelow ?_ upper
              rw [hfs] at hbelow ⊢
              exact .stage hbelow hencloses hwritten (.upper var lower upper body lo)
          · exact hbelow
  | upper var next site body =>
      obtain ⟨stmt, rest', own, b, fs, hfs, hencloses, hwritten, hstage⟩ :=
        h.of_statement rfl (by simp)
      cases hstage with
      | upper var lower upper =>
          simp only [receive]
          split
          · next hi _ =>
              change Placed start (.count var (some next) hi body :: m.frames)
              rw [hfs] at hbelow ⊢
              exact .stage hbelow hencloses hwritten (.count var lower upper body (some next) hi)
          · exact hbelow
  | test test body =>
      obtain ⟨stmt, rest', own, b, fs, hfs, hencloses, hwritten, hstage⟩ :=
        h.of_statement rfl (by simp)
      cases hstage
      simp only [receive]
      split
      · change Placed start (.body body true false :: .again test body :: m.frames)
        rw [hfs] at hbelow ⊢
        exact hbelow.blockAbove hencloses hwritten (.again test body) (.head _)
      · exact hbelow
      · exact hbelow
  | eval items stack site => exact .other hbelow rfl trivial
  | supply c rest =>
      obtain ⟨hrequired, hlt, hrest⟩ := h.supplied
      refine placed_supply hbelow ?_ ?_ ?_
      · simp only [List.length_append, List.length_singleton]
        omega
      · simp only [List.length_append, List.length_singleton]
        omega
      · rw [hrest]
        simp only [List.length_append, List.length_singleton]
  | adopt object cls args taken site => exact placed_initialise hbelow object cls args taken site
  | finish object => exact hbelow
  | _ => exact h

theorem placed_resumeFrame (h : Placed start (f :: m.frames)) :
    Placed start (m.resumeFrame s w f).machine.frames := by
  have hbelow := h.tail
  cases f with
  | body rest own begun =>
      obtain ⟨-, b, hencloses, hwritten⟩ := h.of_body
      cases begun with
      | true => exact .body hbelow hencloses hwritten
      | false =>
          cases rest with
          | nil => exact hbelow
          | cons stmt rest =>
              have hrest : rest <:+ b := (List.suffix_cons stmt rest).trans hwritten
              exact placed_begin (m := m.push (.body rest own true)) rfl
                (.body hbelow hencloses hrest) hencloses hwritten
  | count var next last body =>
      cases next with
      | none => exact hbelow
      | some i =>
          simp only [resumeFrame]
          split
          · exact hbelow
          · obtain ⟨stmt, rest', own, b, fs, hfs, hencloses, hwritten, hstage⟩ :=
              h.of_statement rfl (by simp)
            cases hstage with
            | count var lower upper =>
                change Placed start
                  (.body body true false :: .count var (successor? i) last body :: m.frames)
                rw [hfs] at hbelow ⊢
                exact hbelow.blockAbove hencloses hwritten
                  (.count var lower upper body (successor? i) last) (.head _)
  | again test body =>
      obtain ⟨stmt, rest', own, b, fs, hfs, hencloses, hwritten, hstage⟩ :=
        h.of_statement rfl (by simp)
      cases hstage
      refine placed_evaluate hbelow ?_ test
      rw [hfs] at hbelow ⊢
      exact .stage hbelow hencloses hwritten (.test test body)
  | guard handlers => exact hbelow
  | enter lock body =>
      obtain ⟨stmt, rest', own, b, fs, hfs, hencloses, hwritten, hstage⟩ :=
        h.of_statement rfl (by simp)
      cases hstage
      simp only [resumeFrame]
      split
      · exact h
      · change Placed start (.body body true false :: .hold lock :: m.frames)
        rw [hfs] at hbelow ⊢
        exact hbelow.blockAbove hencloses hwritten (.hold lock body) (.head _)
  | hold lock => exact hbelow
  | eval items stack site => exact placed_evalItem hbelow items stack site
  | call callee args site => exact placed_call hbelow callee args site
  | running c => exact hbelow
  | construct cls args site => exact placed_construct hbelow cls args site
  | _ =>
      simp only [resumeFrame]
      exact placed_receive h .empty

/-- The handler that deals with a failure belongs to the statement whose frame it was. -/
theorem placed_handle (hframes : m.frames = .body rest own true :: fs)
    (h : Placed start (.body rest own true :: fs)) (hencloses : Encloses start fs b) {body : Body}
    {handlers : List Handler} (hwritten : (.attempt body handlers :: rest) <:+ b) (f : Failure) :
    Placed start (m.handle s w f handlers).machine.frames := by
  simp only [handle]
  split
  · change Placed start m.frames
    rw [hframes]
    exact h
  · next handler hfind =>
      change Placed start (.body handler.body true false :: m.frames)
      rw [hframes]
      refine h.block hencloses hwritten (List.mem_cons_of_mem _ ?_)
      exact List.mem_map_of_mem (List.mem_of_find?_eq_some hfind)

theorem placed_unwind (h : Placed start (f :: m.frames)) (e : Exit) :
    Placed start (m.unwind s w e f).machine.frames := by
  have hbelow := h.tail
  unfold unwind
  split
  · exact h
  · exact h
  · exact hbelow
  · exact hbelow
  · split
    · obtain ⟨stmt, rest', own, b, fs, hfs, hencloses, hwritten, hstage⟩ :=
        h.of_statement rfl nofun
      cases hstage with
      | guard body handlers =>
          rw [hfs] at hbelow
          exact placed_handle hfs hbelow hencloses hwritten _
    · split
      · exact hbelow
      · exact hbelow
    · split
      · exact h
      · exact hbelow
    · exact hbelow

/-- A step leaves every frame where what it carries out is written. -/
theorem placed_step (h : Placed start m.frames) :
    Placed start (m.step s w).machine.frames := by
  obtain ⟨frames, signal, scopes, depth⟩ := m
  cases frames with
  | nil => exact h
  | cons f fs =>
      cases signal with
      | run => exact placed_resumeFrame (m := ⟨fs, .run, scopes, depth⟩) h
      | value v => exact placed_receive (m := ⟨fs, .run, scopes, depth⟩) h v
      | leave e => exact placed_unwind (m := ⟨fs, .run, scopes, depth⟩) h e

end Machine

end Statute
