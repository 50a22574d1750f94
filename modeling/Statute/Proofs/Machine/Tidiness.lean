import Statute.Proofs.Machine.Confinement

/-!
# Tidy machines

A frame is tidy if the values that it keeps are bare, with the operands of an expression as the only
exception: these are of kinds from which the remaining items come to a single value. A machine is
tidy if its frames are, and what it hands on or returns is bare.

A step of a tidy machine that is in order leaves a tidy machine and a bare heap, if the heap and the
outcomes of the tasks were bare. The order is needed where a statement ends: the frame below goes on
without a value, so it is not an expression that waits for one.
-/

namespace Statute

open Value (areBare areBare_iff)

/-- Items that come to a single value from operands of the given kinds, without boxes in them. -/
structure Item.Runs (items : List Item) (ks : List Kind) : Prop where
  bare : ∀ i ∈ items, i.isBare = true
  kinds : Item.kindsAfter items ks = some [.value]

namespace Frame

/-- What a frame keeps is bare, but for the operands of an expression. An expression that is not on
top waits for one more value. -/
def Tidy (onTop : Bool) : Frame → Prop
  | .eval items stack _ =>
      ∃ ks, List.Forall₂ Operand.Fits stack ks ∧
        Item.Runs items (if onTop then ks else .value :: ks)
  | .call callee args _ => callee.isBare = true ∧ areBare args = true
  | .supply c _ => areBare c.args = true
  | .running c => areBare c.args = true
  | .construct _ args _ => areBare args = true
  | .adopt _ _ args _ _ => areBare args = true
  | _ => True

/-- A frame that waits for a statement is as tidy on top as it is below. -/
theorem Tidy.onTop {f : Frame} (h : f.Tidy false) (hawaits : f.awaits = some .statement) :
    f.Tidy true := by
  cases f with
  | eval items stack site => simp [awaits] at hawaits
  | _ => exact h

end Frame

def Exit.Tidy : Exit → Prop
  | .returnWith v => v.isBare = true
  | _ => True

namespace Machine

/-- Every frame is tidy, and what is handed on or returned is bare. -/
def Tidy (m : Machine) : Prop :=
  match m.signal, m.frames with
  | .run, f :: fs => f.Tidy true ∧ ∀ g ∈ fs, g.Tidy false
  | .run, [] => True
  | .value v, fs => v.isBare = true ∧ ∀ g ∈ fs, g.Tidy false
  | .leave e, fs => e.Tidy ∧ ∀ g ∈ fs, g.Tidy false

/-- Tidy frames that wait for something of the given shape. -/
structure Rests (k : Shape) (m : Machine) : Prop where
  tidy : ∀ f ∈ m.frames, f.Tidy false
  awaits : ∀ f fs, m.frames = f :: fs → f.awaits = some k

end Machine

/-- The heap after a step is bare, and the machine is tidy unless the host broke down. -/
structure Reply.Tidy (r : Reply) : Prop where
  heap : r.world.heap.Bare
  machine : (∀ message, r.step ≠ .crash message) → r.machine.Tidy

namespace Machine

variable {s : Setting} {w : World} {m : Machine} {k : Shape}

/-! ## Beginning and ending -/

theorem Rests.next (h : m.Rests .statement) (hheap : w.heap.Bare) : (m.next w).Tidy := by
  refine ⟨hheap, fun _ => ?_⟩
  obtain ⟨frames, signal, scopes, depth⟩ := m
  cases frames with
  | nil => trivial
  | cons f fs =>
      exact ⟨(h.tidy f List.mem_cons_self).onTop (h.awaits f fs rfl), fun g hg =>
        h.tidy g (List.mem_cons_of_mem f hg)⟩

theorem Rests.yield (h : m.Rests k) (hheap : w.heap.Bare) {v : Value} (hv : v.isBare = true) :
    (m.yield w v).Tidy :=
  ⟨hheap, fun _ => ⟨hv, h.tidy⟩⟩

theorem Rests.leave (h : m.Rests k) (hheap : w.heap.Bare) {e : Exit} (he : e.Tidy) :
    (m.leave w e).Tidy :=
  ⟨hheap, fun _ => ⟨he, h.tidy⟩⟩

theorem Rests.fail (h : m.Rests k) (hheap : w.heap.Bare) (f : Failure) : (m.fail w f).Tidy :=
  h.leave hheap trivial

theorem Rests.push {f : Frame} {k' : Shape} (h : m.Rests k') (hf : f.Tidy false)
    (hawaits : f.awaits = some k) : (m.push f).Rests k := by
  refine ⟨fun g hg => ?_, fun g gs hg => ?_⟩
  · rcases List.mem_cons.mp hg with rfl | hg
    · exact hf
    · exact h.tidy g hg
  · obtain ⟨rfl, -⟩ := List.cons.inj hg
    exact hawaits

/-- A tidy frame is put on top and goes on. -/
theorem Rests.push_next {f : Frame} (h : m.Rests k) (hheap : w.heap.Bare) (hf : f.Tidy true) :
    ((m.push f).next w).Tidy :=
  ⟨hheap, fun _ => ⟨hf, h.tidy⟩⟩

/-- A tidy frame is put back. -/
theorem Rests.put {f : Frame} (h : m.Rests k) (hheap : w.heap.Bare) (hsignal : m.signal = .run)
    (hf : f.Tidy true) (st : Step) : Reply.Tidy ⟨st, w, m.push f⟩ := by
  refine ⟨hheap, fun _ => ?_⟩
  obtain ⟨frames, signal, scopes, depth⟩ := m
  change signal = .run at hsignal
  subst hsignal
  exact ⟨hf, h.tidy⟩

theorem bare_giveBack (hheap : w.heap.Bare) (m : Machine) (f : Frame) :
    (m.giveBack w f).1.heap.Bare := by
  unfold giveBack
  cases f.lock? with
  | none => exact hheap
  | some l => exact hheap.of_eq rfl rfl rfl

theorem Rests.giveBack (h : m.Rests k) (f : Frame) : (m.giveBack w f).2.Rests k :=
  ⟨h.tidy, h.awaits⟩

theorem Rests.block (h : m.Rests k) (hheap : w.heap.Bare) {vars : List (String × Value)}
    (hvars : ∀ p ∈ vars, p.2.isBare = true) (name : String) (body : Body) :
    (m.block w name vars body).Tidy :=
  ⟨(hheap.newScope name).defineAll hvars _, fun _ => ⟨trivial, h.tidy⟩⟩

theorem Rests.turn (h : m.Rests k) (hheap : w.heap.Bare) {vars : List (String × Value)}
    (hvars : ∀ p ∈ vars, p.2.isBare = true) (name : String) (body : Body) :
    (m.turn w name vars body).Tidy :=
  ⟨(hheap.newScope name).defineAll hvars _, fun _ => ⟨trivial, h.tidy⟩⟩

/-- A compiled expression begins tidy. -/
theorem tidy_eval {raws : List String} {items : List Item} (h : Code.itemsOf raws = .ok items)
    (site : Location) : (Frame.eval items [] site).Tidy true := by
  obtain ⟨t, -, rfl⟩ := Tree.items_of_itemsOf h
  exact ⟨[], .nil, t.isBare_items false, Code.kindsAfter_itemsOf h []⟩

theorem Rests.evaluate (h : m.Rests k) (hheap : w.heap.Bare) {f : Frame} (hf : f.Tidy false)
    (e : Expression) : (m.evaluate w f e).Tidy := by
  unfold Machine.evaluate
  split
  · next c hc =>
      have hitems := Expression.itemsOf_of_compile hc
      refine ⟨hheap, fun _ => ⟨tidy_eval hitems c.location, fun g hg => ?_⟩⟩
      rcases List.mem_cons.mp hg with rfl | hg
      · exact hf
      · exact h.tidy g hg
  · exact h.fail hheap _

/-! ## Statements -/

theorem Rests.choose (h : m.Rests .statement) (hheap : w.heap.Bare) (otherwise : Option Body)
    (branches : List Branch) : (m.choose w otherwise branches).Tidy := by
  cases branches with
  | nil =>
      cases otherwise with
      | none => exact h.next hheap
      | some body => exact h.block hheap (List.forall_mem_nil _) "else" body
  | cons b rest =>
      obtain ⟨test, body⟩ := b
      exact h.evaluate (f := .branch _ _ _ _) hheap trivial test

theorem Rests.begin (h : m.Rests .statement) (hheap : w.heap.Bare) (stmt : Statement) :
    (m.begin w stmt).Tidy := by
  cases stmt with
  | declare name e => exact h.evaluate (f := .act _ _) hheap trivial e
  | assign target e => exact h.evaluate (f := .act _ _) hheap trivial e
  | choose branches otherwise => exact h.choose hheap otherwise branches
  | repeatFor var lower upper body => exact h.evaluate (f := .lower _ _ _ _) hheap trivial lower
  | repeatWhile test body => exact h.evaluate (f := .test _ _) hheap trivial test
  | attempt body handlers =>
      exact (h.push (k := .statement) (f := .guard handlers) trivial rfl).block hheap
        (List.forall_mem_nil _) "try" body
  | raise e => exact h.evaluate (f := .act _ _) hheap trivial e
  | exclusive lock body => exact h.push_next (f := .enter lock body) hheap trivial
  | print e => exact h.evaluate (f := .act _ _) hheap trivial e
  | returnWith e =>
      cases e with
      | none => exact h.leave (e := .returnWith .empty) hheap rfl
      | some e => exact h.evaluate (f := .act _ _) hheap trivial e
  | breakOut => exact h.leave (e := .breakOut) hheap trivial
  | continueOn => exact h.leave (e := .continueOn) hheap trivial
  | perform e => exact h.evaluate (f := .act _ _) hheap trivial e

theorem Rests.act (h : m.Rests .statement) (hheap : w.heap.Bare) {v : Value}
    (hv : v.isBare = true) (site : Location) (action : Action) :
    (m.act s w site v action).Tidy := by
  cases action with
  | declare name =>
      simp only [Machine.act]
      split
      · exact h.fail hheap _
      · exact h.next (hheap.define hv _ name)
  | assign target =>
      simp only [Machine.act]
      split
      · exact h.next (hheap.store hv _)
      · exact h.fail hheap _
  | print => exact h.next hheap
  | raise =>
      simp only [Machine.act]
      split
      · exact h.fail hheap _
      · exact h.fail hheap _
  | returnWith => exact h.leave (e := .returnWith v) hheap hv
  | discard => exact h.next hheap

theorem Rests.handle (h : m.Rests .statement) (hheap : w.heap.Bare) (f : Failure)
    (handlers : List Handler) : (m.handle s w f handlers).Tidy := by
  simp only [Machine.handle]
  split
  · exact h.fail hheap f
  · refine Rests.block (w := { w with heap := (w.heap.exception s.registry f).1 }) h
      (hheap.exception s.registry f) ?_ _ _
    split
    · intro p hp
      rw [List.mem_singleton.mp hp]
      exact w.heap.isBare_exception s.registry f
    · simp

/-! ## Calls -/

theorem isBare_callVars {c : Call} (hargs : areBare c.args = true) :
    ∀ p ∈ callVars c, p.2.isBare = true := by
  intro p hp
  rcases List.mem_append.mp hp with hp | hp
  · exact areBare_iff.mp hargs p.2 (List.of_mem_zip (b := p.2) (a := p.1) hp).2
  · split at hp
    · rw [List.mem_singleton.mp hp]
      rfl
    · contradiction

theorem Rests.enter (h : m.Rests k) (hheap : w.heap.Bare) {c : Call}
    (hargs : areBare c.args = true) : (m.enter s w c).Tidy := by
  simp only [Machine.enter]
  split
  · exact h.fail hheap _
  · refine ⟨(hheap.newScope _).defineAll (isBare_callVars hargs) _, fun _ =>
      ⟨trivial, fun g hg => ?_⟩⟩
    rcases List.mem_cons.mp hg with rfl | hg
    · exact hargs
    · exact h.tidy g hg

theorem Rests.supply (h : m.Rests k) (hheap : w.heap.Bare) {c : Call}
    (hargs : areBare c.args = true) (params : List Param) : (m.supply s w c params).Tidy := by
  cases params with
  | nil => exact h.enter hheap hargs
  | cons p rest =>
      simp only [Machine.supply]
      split
      · exact h.fail hheap _
      · next e _ =>
          split
          · next code hcode =>
              have hitems := Expression.itemsOf_of_compile hcode
              refine ⟨hheap, fun _ => ⟨tidy_eval hitems code.location, fun g hg => ?_⟩⟩
              rcases List.mem_cons.mp hg with rfl | hg
              · exact hargs
              · exact h.tidy g hg
          · exact h.fail hheap _

theorem Rests.bind (h : m.Rests k) (hheap : w.heap.Bare) {c : Call}
    (hargs : areBare c.args = true) : (m.bind s w c).Tidy := by
  simp only [Machine.bind]
  split
  · exact h.fail hheap _
  · exact h.supply hheap hargs _

theorem Rests.call (h : m.Rests k) (hhost : Host.Bare s.host) (hheap : w.heap.Bare)
    (callee : Value) {args : List Value} (hargs : areBare args = true) (site : Option Location) :
    (m.call s w callee args site).Tidy := by
  cases callee with
  | procedure p => exact h.bind (c := ⟨p, none, args, site⟩) hheap hargs
  | method r p => exact h.bind (c := ⟨p, some r, args, site⟩) hheap hargs
  | classDef c => exact h.push_next (f := .construct c args site) hheap hargs
  | extension e =>
      simp only [Machine.call]
      split
      · next v hv => exact h.yield hheap (Extension.isBare_of_checkedCall hhost hargs hv)
      · exact h.fail hheap _
      · next message _ => exact ⟨hheap, fun hcrash => absurd rfl (hcrash message)⟩
  | _ => exact h.fail hheap _

theorem Rests.initialise (h : m.Rests k) (hheap : w.heap.Bare) (object : ObjectRef) (cls : Class)
    {args : List Value} (hargs : areBare args = true) (taken : Nat) (site : Option Location) :
    (m.initialise w object cls args taken site).Tidy := by
  unfold Machine.initialise
  split
  · next p _ =>
      exact (h.push (k := .value) (f := .finish object) trivial rfl).push_next
        (f := .call (.method object p) args site) hheap ⟨rfl, hargs⟩
  · split
    · exact h.fail hheap _
    · exact h.yield hheap rfl

theorem Rests.construct (h : m.Rests k) (hheap : w.heap.Bare) (cls : Class) {args : List Value}
    (hargs : areBare args = true) (site : Option Location) :
    (m.construct w cls args site).Tidy := by
  unfold Machine.construct
  split
  · split
    · exact h.fail hheap _
    · exact h.yield (hheap.newError cls _) rfl
  · have hnew : (w.heap.newObject cls).1.Bare := hheap.of_eq rfl rfl rfl
    simp only
    split
    · exact h.initialise hnew _ cls hargs 0 site
    · exact (h.push (k := .value) (f := .adopt _ cls args _ site) hargs rfl).push_next
        (f := .construct _ _ site) hnew (Value.areBare_take hargs _)

/-! ## Expressions -/

theorem eq_of_claim {t : TaskRef} {w' : World} {o : Outcome} (h : w.claim t = .ok (w', o)) :
    w'.heap = w.heap ∧ o = (w.task t).outcome.getD (.ok .empty) := by
  unfold World.claim Task.claim at h
  split at h
  · next hclaim =>
      split at hclaim
      · contradiction
      · obtain ⟨rfl, rfl⟩ := Prod.mk.inj (Except.ok.inj h)
        obtain ⟨rfl, -⟩ := Prod.mk.inj (Except.ok.inj hclaim)
        exact ⟨rfl, rfl⟩
  · contradiction

theorem heap_of_schedule {w' : World} {label : String} {t : TaskRef}
    (h : w.schedule label m = .ok (w', t)) : w'.heap = w.heap := by
  unfold World.schedule at h
  split at h
  · contradiction
  · obtain ⟨rfl, -⟩ := Prod.mk.inj (Except.ok.inj h)
    rfl

/-- An item finds its operands of the kinds that it takes, and the rest goes on from there. -/
theorem exists_of_tidy {i : Item} {rest : List Item} {stack : List Operand} {site : Location}
    (h : (Frame.eval (i :: rest) stack site).Tidy true) :
    ∃ ks ks', i.isBare = true ∧ List.Forall₂ Operand.Fits stack ks ∧ i.kinds? ks = some ks' ∧
      Item.Runs rest ks' := by
  obtain ⟨ks, hstack, hbare, hkinds⟩ := h
  obtain ⟨ks', hi, hafter⟩ := Option.bind_eq_some_iff.mp hkinds
  exact ⟨ks, ks', hbare i List.mem_cons_self, hstack, hi,
    fun j hj => hbare j (List.mem_cons_of_mem i hj), hafter⟩

theorem isBare_of_result {stack : List Operand} {site : Location} {v : Value}
    (hheap : w.heap.Bare) (h : (Frame.eval [] stack site).Tidy true)
    (hv : Item.result w.heap stack = .ok v) : v.isBare = true := by
  obtain ⟨ks, hstack, -, hkinds⟩ := h
  obtain rfl := Option.some.inj hkinds
  obtain ⟨u, rest, rfl, hu, hrest⟩ := Operand.exists_of_value hstack
  cases hrest
  rw [← Except.ok.inj hv]
  exact hu.unbox hheap

theorem Rests.evalItem (h : m.Rests k) (hhost : Host.Bare s.host) (hheap : w.heap.Bare)
    (houtcomes : ∀ t v, (w.task t).outcome = some (.ok v) → v.isBare = true)
    (hsignal : m.signal = .run) {items : List Item} {stack : List Operand} {site : Location}
    (htidy : (Frame.eval items stack site).Tidy true) :
    (m.evalItem s w items stack site).Tidy := by
  cases items with
  | nil =>
      simp only [Machine.evalItem]
      split
      · next v hv => exact h.yield hheap (isBare_of_result hheap htidy hv)
      · exact h.fail hheap _
  | cons i rest =>
      obtain ⟨ks, ks', hi, hstack, hkinds, hruns⟩ := exists_of_tidy htidy
      have hconfines := Item.confines_effect m.scopes.current hhost hheap hi hstack hkinds
      simp only [Machine.evalItem]
      cases heffect : i.effect s w.heap m.scopes.current stack with
      | next stack' =>
          rw [heffect] at hconfines
          exact h.push_next (f := .eval rest stack' site) hheap ⟨ks', hconfines, hruns⟩
      | call callee args stack' =>
          rw [heffect] at hconfines
          obtain ⟨hcallee, hargs, below, rfl, hstack'⟩ := hconfines
          have heval : (Frame.eval rest stack' site).Tidy false := ⟨below, hstack', hruns⟩
          exact (h.push (k := .value) heval rfl).push_next (f := .call callee args (some site))
            hheap ⟨hcallee, hargs⟩
      | schedule callee args stack' =>
          rw [heffect] at hconfines
          obtain ⟨-, -, below, rfl, hstack'⟩ := hconfines
          simp only
          split
          · next w' t hschedule =>
              refine h.push_next (f := .eval rest (.value (.task t) :: stack') site) ?_
                ⟨.value :: below, .cons (.bare rfl) hstack', hruns⟩
              rw [heap_of_schedule hschedule]
              exact hheap
          · exact h.fail hheap _
      | await t stack' =>
          rw [heffect] at hconfines
          obtain ⟨below, rfl, hstack'⟩ := hconfines
          simp only
          split
          · exact h.fail hheap _
          · split
            · exact h.put hheap hsignal htidy _
            · split
              · next w' v hclaim =>
                  obtain ⟨hheap', hv⟩ := eq_of_claim hclaim
                  have hbare : v.isBare = true := by
                    cases houtcome : (w.task t).outcome with
                    | none =>
                        rw [houtcome] at hv
                        rw [Except.ok.inj hv]
                        rfl
                    | some o =>
                        rw [houtcome] at hv
                        exact houtcomes t v (houtcome.trans (congrArg some hv.symm))
                  refine h.push_next (f := .eval rest (.value v :: stack') site) ?_
                    ⟨.value :: below, .cons (.bare hbare) hstack', hruns⟩
                  rwa [hheap']
              · next w' f hclaim =>
                  refine h.fail ?_ _
                  rwa [(eq_of_claim hclaim).1]
              · exact h.fail hheap _
      | fail f => exact h.fail hheap _
      | crash message => exact ⟨hheap, fun hcrash => absurd rfl (hcrash message)⟩

/-! ## Frames -/

/-- A frame receives the value that it waited for. -/
theorem tidy_receive {f : Frame} (h : m.Rests f.result) (hheap : w.heap.Bare)
    (hf : f.Tidy false) (hawaits : f.awaits = some .value) {v : Value} (hv : v.isBare = true) :
    (m.receive s w v f).Tidy := by
  cases f with
  | act action site => exact Rests.act h hheap hv site action
  | branch site body rest otherwise =>
      simp only [receive]
      split
      · exact h.block hheap (List.forall_mem_nil _) "if" body
      · exact Rests.choose h hheap otherwise rest
      · exact h.fail hheap _
  | lower var site upper body =>
      simp only [receive]
      split
      · exact h.evaluate (f := .upper _ _ _ _) hheap trivial upper
      · exact h.fail hheap _
  | upper var next site body =>
      simp only [receive]
      split
      · exact h.push_next (f := .count _ _ _ _) hheap trivial
      · exact h.fail hheap _
  | test test body =>
      simp only [receive]
      split
      · exact (h.push (k := .statement) (f := .again test body) trivial rfl).turn hheap
          (List.forall_mem_nil _) "while" body
      · exact Rests.next h hheap
      · exact h.fail hheap _
  | eval items stack site =>
      obtain ⟨ks, hstack, hruns⟩ := hf
      exact h.push_next (f := .eval items (.value v :: stack) site) hheap
        ⟨.value :: ks, .cons (.bare hv) hstack, hruns⟩
  | supply c rest =>
      have hc : areBare c.args = true := hf
      refine h.supply (c := { c with args := c.args ++ [v] }) hheap ?_ rest
      simp [hc, hv, areBare]
  | adopt object cls args taken site =>
      refine h.initialise ?_ object cls hf taken site
      split
      · exact hheap.of_eq rfl rfl rfl
      · exact hheap
  | finish object => exact h.yield hheap rfl
  | _ => simp [Frame.awaits] at hawaits

/-- A frame goes on by itself. -/
theorem tidy_resumeFrame {f : Frame} (h : m.Rests f.result) (hhost : Host.Bare s.host)
    (hheap : w.heap.Bare)
    (houtcomes : ∀ t v, (w.task t).outcome = some (.ok v) → v.isBare = true)
    (hsignal : m.signal = .run) (hgoes : f.goesOn = true) (hf : f.Tidy true) :
    (m.resumeFrame s w f).Tidy := by
  cases f with
  | body rest own begun =>
      cases begun with
      | true => exact h.put (f := .body rest own false) hheap hsignal trivial _
      | false =>
          cases rest with
          | nil =>
              exact Rests.next (h.giveBack (w := w) (.body [] own false))
                (bare_giveBack hheap m (.body [] own false))
          | cons stmt rest =>
              exact (h.push (k := .statement) (f := .body rest own true) trivial rfl).begin hheap
                stmt
  | count var next last body =>
      cases next with
      | none => exact Rests.next h hheap
      | some i =>
          simp only [resumeFrame]
          split
          · exact Rests.next h hheap
          · refine (h.push (k := .statement) (f := .count var (successor? i) last body) trivial
              rfl).turn hheap ?_ _ _
            split
            · intro p hp
              rw [List.mem_singleton.mp hp]
              rfl
            · exact List.forall_mem_nil _
  | again test body => exact h.evaluate (f := .test test body) hheap trivial test
  | guard handlers => exact Rests.next h hheap
  | enter lock body =>
      simp only [resumeFrame]
      split
      · exact h.put (f := .enter lock body) hheap hsignal trivial _
      · refine (h.push (k := .statement) (f := .hold lock) trivial rfl).block ?_
          (List.forall_mem_nil _) "exclusive" body
        exact hheap.of_eq rfl rfl rfl
  | hold lock =>
      exact Rests.next (h.giveBack (w := w) (.hold lock))
        (bare_giveBack hheap m (.hold lock))
  | eval items stack site => exact h.evalItem hhost hheap houtcomes hsignal hf
  | call callee args site => exact h.call hhost hheap callee hf.2 site
  | running c =>
      exact Rests.yield (v := .empty) (h.giveBack (w := w) (.running c))
        (bare_giveBack hheap m (.running c)) rfl
  | construct cls args site => exact h.construct hheap cls hf site
  | _ => simp [Frame.goesOn, Frame.awaits] at hgoes

/-- A frame is left: because of a failure, or because a statement above it was left. -/
theorem tidy_unwind {f : Frame} {e : Exit} (h : m.Rests f.result) (hheap : w.heap.Bare)
    (hf : f.Tidy false) (he : e.Tidy) : (m.unwind s w e f).Tidy := by
  have hback := h.giveBack (w := w) f
  have hheap' := bare_giveBack hheap m f
  unfold unwind
  split
  · exact ⟨hheap, fun _ => ⟨trivial, List.forall_mem_cons.mpr ⟨hf, h.tidy⟩⟩⟩
  · exact ⟨hheap, fun _ => ⟨trivial, List.forall_mem_cons.mpr ⟨hf, h.tidy⟩⟩⟩
  · exact hback.yield hheap' he
  · exact hback.fail hheap' _
  · split
    · exact Rests.handle h hheap _ _
    · split
      · next hloop =>
          obtain ⟨-, -, hresult, -⟩ := Frame.owns_of_isLoop hloop
          rw [hresult] at h
          exact h.next hheap
      · exact hback.leave hheap' he
    · split
      · next hloop =>
          refine h.push_next hheap ?_
          cases f with
          | count var next last body => trivial
          | again test body => trivial
          | _ => contradiction
      · exact hback.leave hheap' he
    · exact hback.leave hheap' he

/-- What is below the frame on top waits for what that frame comes to. -/
theorem InOrder.rests {goal : Shape} {base : Nat} {env : Env} {f : Frame} {fs : List Frame}
    (horder : m.InOrder goal base env) (hframes : m.frames = f :: fs)
    (htidy : ∀ g ∈ fs, g.Tidy false) (signal : Signal) :
    Rests f.result ⟨fs, signal, m.scopes, m.depth⟩ := by
  refine ⟨htidy, ?_⟩
  rintro g gs rfl
  obtain ⟨envs, depth, -, hbelow⟩ := horder.stands hframes
  exact hbelow.of_cons.1

/-- A step of a tidy machine in order leaves a tidy machine and a bare heap. -/
theorem Tidy.step {goal : Shape} {base : Nat} {env : Env} (h : m.Tidy)
    (horder : m.InOrder goal base env) (hhost : Host.Bare s.host) (hheap : w.heap.Bare)
    (houtcomes : ∀ t v, (w.task t).outcome = some (.ok v) → v.isBare = true) :
    (m.step s w).Tidy := by
  cases hframes : m.frames with
  | nil =>
      rw [step_of_frames_nil hframes]
      exact ⟨hheap, fun _ => h⟩
  | cons f fs =>
      obtain ⟨frames, signal, scopes, depth⟩ := m
      change frames = f :: fs at hframes
      subst hframes
      cases signal with
      | run =>
          exact tidy_resumeFrame (horder.rests rfl h.2 .run) hhost hheap houtcomes rfl
            horder.2.1 h.1
      | value v =>
          obtain ⟨hf, hfs⟩ := List.forall_mem_cons.mp h.2
          exact tidy_receive (horder.rests rfl hfs .run) hheap hf (Upholds.of_cons horder.2).1 h.1
      | leave e =>
          obtain ⟨hf, hfs⟩ := List.forall_mem_cons.mp h.2
          exact tidy_unwind (horder.rests rfl hfs .run) hheap hf h.1

end Machine

end Statute
