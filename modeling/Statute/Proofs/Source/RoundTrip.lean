import Statute.Proofs.Statement.Target
import Statute.Source.Decode
import Statute.Source.Encode

/-!
# Sources survive writing and reading

A source can be spelled in many ways, but it is written in one. The two directions meet at the plain
sources, which say nothing that a document cannot tell: no expression names a file, no exclusive
block a lock, every assignment target is clean, and the fields of every record form a map. What is
read is plain, and a plain source is read back from its document as it was. `unplaced` takes the
files and locks off any source, and does not change its document.
-/

namespace Statute

open Decode

/-! ### Lists of documents -/

namespace Decode

theorem mapM_map_eq_some {α : Type} {write : α → Json} {read : Json → Option α} {xs : List α}
    (h : ∀ x ∈ xs, read (write x) = some x) : (xs.map write).mapM read = some xs := by
  induction xs with
  | nil => simp
  | cons x xs ih =>
      rw [List.forall_mem_cons] at h
      simp [h.1, ih h.2]

theorem listOf_arr_map {α : Type} {write : α → Json} {read : Json → Option α} {xs : List α}
    (h : ∀ x ∈ xs, read (write x) = some x) : listOf read (.arr (xs.map write)) = some xs :=
  mapM_map_eq_some h

theorem optional_map {α : Type} {write : α → Json} {read : Json → Option α} {found : Option α}
    (hnull : ∀ a, write a ≠ .null) (h : ∀ a ∈ found, read (write a) = some a) :
    optional read (found.map write) = some found := by
  cases found with
  | none => rfl
  | some a =>
      rw [Option.map_some, optional]
      · rw [h a rfl, Option.map_some]
      · exact hnull a

theorem optional_str (found : Option String) :
    optional Json.str? (found.map .str) = some found :=
  optional_map (by simp) fun _ _ => rfl

theorem exists_of_mem_mapM {α β : Type} {read : α → Option β} {xs : List α} {ys : List β}
    (h : xs.mapM read = some ys) {y : β} (hy : y ∈ ys) : ∃ x, read x = some y := by
  induction xs generalizing ys with
  | nil => simp_all
  | cons x xs ih =>
      simp only [List.mapM_cons, Option.bind_eq_bind, Option.bind_eq_some_iff, Option.pure_def,
        Option.some.injEq] at h
      obtain ⟨z, hz, zs, hzs, rfl⟩ := h
      rcases List.mem_cons.mp hy with rfl | hy
      · exact ⟨x, hz⟩
      · exact ih hzs hy

/-- Whatever is read alike has what one reading gives. -/
theorem forall_of_listOf {α : Type} {read : Json → Option α} {P : α → Prop}
    (hread : ∀ j a, read j = some a → P a) {j : Json} {xs : List α} (h : listOf read j = some xs) :
    ∀ x ∈ xs, P x := by
  cases j with
  | arr items =>
      intro x hx
      obtain ⟨item, hitem⟩ := exists_of_mem_mapM h hx
      exact hread item x hitem
  | _ => simp [listOf] at h

theorem of_required {α : Type} {read : Json → Option α} {P : α → Prop}
    (hread : ∀ j a, read j = some a → P a) {part : Option Json} {a : α}
    (h : required read part = some a) : P a := by
  cases part with
  | none => simp [required] at h
  | some j => exact hread j a h

theorem of_withDefault {α : Type} {read : Json → Option α} {P : α → Prop} {d : α} (hd : P d)
    (hread : ∀ j a, read j = some a → P a) {part : Option Json} {a : α}
    (h : withDefault d read part = some a) : P a := by
  cases part with
  | none =>
      obtain rfl : d = a := by simpa [withDefault] using h
      exact hd
  | some j => exact hread j a h

theorem of_optional {α : Type} {read : Json → Option α} {P : α → Prop}
    (hread : ∀ j a, read j = some a → P a) {part : Option Json} {found : Option α}
    (h : optional read part = some found) : ∀ a ∈ found, P a := by
  rintro a ⟨⟩
  match part with
  | none | some .null => simp [optional] at h
  | some (.bool _) | some (.int _) | some (.number _) | some (.str _) | some (.arr _)
  | some (.obj _) =>
      simp only [optional, Option.map_eq_some_iff, Option.some.injEq, exists_eq_right] at h
      exact hread _ a h

end Decode

/-! ### Documents as maps -/

namespace Json

theorem any_lastMembers (key : String) (members : List (String × Json)) :
    (lastMembers members).any (fun m => m.1 = key) = members.any fun m => m.1 = key := by
  induction members with
  | nil => rfl
  | cons m rest ih =>
      rw [lastMembers]
      split
      · rename_i hlater
        by_cases hm : m.1 = key
        · rw [ih, List.any_cons, ← hm, hlater, Bool.or_true]
        · simp [ih, hm]
      · simp [ih]

theorem lastMembers_lastMembers (members : List (String × Json)) :
    lastMembers (lastMembers members) = lastMembers members := by
  induction members with
  | nil => rfl
  | cons m rest ih =>
      rw [lastMembers]
      split
      · exact ih
      · rename_i hlast
        rw [lastMembers, any_lastMembers, if_neg hlast, ih]

theorem any_asMapMembers (key : String) (members : List (String × Json)) :
    (asMapMembers members).any (fun m => m.1 = key) = members.any fun m => m.1 = key := by
  induction members with
  | nil => rfl
  | cons m rest ih => simp [asMapMembers, ih]

theorem asMapMembers_lastMembers (members : List (String × Json)) :
    asMapMembers (lastMembers members) = lastMembers (asMapMembers members) := by
  induction members with
  | nil => rfl
  | cons m rest ih =>
      rw [asMapMembers, lastMembers, lastMembers, any_asMapMembers, apply_ite asMapMembers, ih,
        asMapMembers, ih]

mutual

theorem asMap_asMap : ∀ j : Json, j.asMap.asMap = j.asMap
  | .null | .bool _ | .int _ | .number _ | .str _ => by simp [asMap]
  | .arr items => by simp [asMap, asMapItems_asMapItems items]
  | .obj members => by
      simp [asMap, asMapMembers_lastMembers, lastMembers_lastMembers,
        asMapMembers_asMapMembers members]

theorem asMapItems_asMapItems : ∀ items : List Json,
    asMapItems (asMapItems items) = asMapItems items
  | [] => rfl
  | j :: rest => by simp [asMapItems, asMap_asMap j, asMapItems_asMapItems rest]

theorem asMapMembers_asMapMembers : ∀ members : List (String × Json),
    asMapMembers (asMapMembers members) = asMapMembers members
  | [] => rfl
  | (k, j) :: rest => by simp [asMapMembers, asMap_asMap j, asMapMembers_asMapMembers rest]

end

/-- A key that stands first and not again is found there. -/
theorem lookup_cons_of_absent {key : String} {members : List (String × Json)}
    (h : ∀ m ∈ members, m.1 ≠ key) (j : Json) : lookup key ((key, j) :: members) = some j := by
  have hkept : ∀ found : Option Json,
      members.foldl (fun found m => if m.1 = key then some m.2 else found) found = found := by
    intro found
    induction members with
    | nil => rfl
    | cons m rest ih =>
        rw [List.forall_mem_cons] at h
        rw [List.foldl_cons, if_neg h.1, ih h.2]
  simpa [lookup] using hkept (some j)

theorem depth_lt_of_mem_items {items : List Json} {j : Json} (h : j ∈ items) :
    j.depth < (Json.arr items).depth := by
  rw [depth.eq_1, Nat.lt_succ_iff]
  induction items with
  | nil => cases h
  | cons k rest ih =>
      rw [depthItems]
      rcases List.mem_cons.mp h with rfl | h
      · exact Nat.le_max_left _ _
      · exact (ih h).trans (Nat.le_max_right _ _)

theorem depth_lt_of_mem_members {members : List (String × Json)} {m : String × Json}
    (h : m ∈ members) : m.2.depth < (Json.obj members).depth := by
  rw [depth.eq_2, Nat.lt_succ_iff]
  induction members with
  | nil => cases h
  | cons k rest ih =>
      rw [depthMembers]
      rcases List.mem_cons.mp h with rfl | h
      · exact Nat.le_max_left _ _
      · exact (ih h).trans (Nat.le_max_right _ _)

end Json

/-! ### Plain sources -/

def Expression.Plain (e : Expression) : Prop :=
  e.location.file = ""

/-- The statement says nothing that its document does not tell. -/
inductive Statement.Plain : Statement → Prop
  | declare {name : String} {value : Expression} :
      value.Plain → Plain (.declare name value)
  | assign {target : Target} {value : Expression} :
      target.Clean → value.Plain → Plain (.assign target value)
  | choose {branches : List Branch} {otherwise : Option Body} :
      (∀ b ∈ branches, b.test.Plain) → (∀ b ∈ branches, ∀ s ∈ b.body, Plain s) →
      (∀ body ∈ otherwise, ∀ s ∈ body, Plain s) → Plain (.choose branches otherwise)
  | repeatFor {var : Option String} {lower upper : Expression} {body : Body} :
      lower.Plain → upper.Plain → (∀ s ∈ body, Plain s) →
      Plain (.repeatFor var lower upper body)
  | repeatWhile {test : Expression} {body : Body} :
      test.Plain → (∀ s ∈ body, Plain s) → Plain (.repeatWhile test body)
  | attempt {body : Body} {handlers : List Handler} :
      (∀ s ∈ body, Plain s) → (∀ h ∈ handlers, ∀ s ∈ h.body, Plain s) →
      Plain (.attempt body handlers)
  | raise {value : Expression} : value.Plain → Plain (.raise value)
  | exclusive {body : Body} : (∀ s ∈ body, Plain s) → Plain (.exclusive 0 body)
  | print {value : Expression} : value.Plain → Plain (.print value)
  | returnWith {value : Option Expression} :
      (∀ e ∈ value, e.Plain) → Plain (.returnWith value)
  | breakOut : Plain .breakOut
  | continueOn : Plain .continueOn
  | perform {value : Expression} : value.Plain → Plain (.perform value)

def Body.Plain (b : Body) : Prop :=
  ∀ s ∈ b, s.Plain

def ParamDecl.Plain (p : ParamDecl) : Prop :=
  ∀ e ∈ p.default, e.Plain

/-- The defaults and the body of the procedure are plain. -/
structure ProcedureDecl.Plain (p : ProcedureDecl) : Prop where
  params : ∀ q ∈ p.params, q.Plain
  body : p.body.Plain

/-- The methods and the constructor of the class are plain. -/
structure ClassDecl.Plain (c : ClassDecl) : Prop where
  methods : ∀ m ∈ c.methods, m.Plain
  ctor : ∀ m ∈ c.ctor, m.Plain

/-- The fields of the record form a map, and so does every object inside them. -/
def RecordDecl.Plain (r : RecordDecl) : Prop :=
  (Json.obj r.fields).asMap = .obj r.fields

/-- The source says nothing that its document does not tell. -/
structure Source.Plain (s : Source) : Prop where
  procedures : ∀ p ∈ s.procedures, p.Plain
  classes : ∀ c ∈ s.classes, c.Plain
  records : ∀ r ∈ s.records, r.Plain
  main : s.main.Plain

/-! ### What is read is plain -/

theorem Expression.plain_of_ofLocated {members : List (String × Json)} {e : Expression}
    (h : ofLocated members = .ok e) : e.Plain := by
  unfold ofLocated at h
  dsimp only at h
  split at h <;> cases h <;> rfl

theorem Expression.plain_of_decode {j : Json} {e : Expression} (h : decode j = .ok e) :
    e.Plain := by
  unfold decode at h
  split at h
  · cases h
    rfl
  · split at h <;> cases h
    rfl
  · exact plain_of_ofLocated h
  · cases h

theorem Expression.plain_of_ofJson? (j : Json) (e : Expression) (h : ofJson? j = some e) :
    e.Plain := by
  rw [ofJson?] at h
  cases hd : decode j with
  | ok e' =>
      rw [hd] at h
      cases h
      exact plain_of_decode hd
  | error f =>
      rw [hd] at h
      cases h

theorem Target.clean_of_ofJson? (j : Json) (t : Target) (h : ofJson? j = some t) : t.Clean := by
  obtain ⟨raw, -, hread⟩ := Option.bind_eq_some_iff.mp h
  exact clean_of_read? hread

section Bodies

variable {body : Json → Option Body} (hbody : ∀ j b, body j = some b → b.Plain)
include hbody

theorem Branch.plain_of_ofJson? (j : Json) (b : Branch) (h : ofJson? body j = some b) :
    b.test.Plain ∧ b.body.Plain := by
  simp only [ofJson?, Option.bind_eq_bind, Option.bind_eq_some_iff] at h
  obtain ⟨parts, -, h⟩ := h
  split at h
  · simp only [Option.bind_eq_some_iff, Option.pure_def, Option.some.injEq] at h
    obtain ⟨test, htest, block, hblock, rfl⟩ := h
    exact ⟨of_required Expression.plain_of_ofJson? htest, of_required hbody hblock⟩
  · cases h

theorem Handler.plain_of_ofJson? (j : Json) (c : Handler) (h : ofJson? body j = some c) :
    c.body.Plain := by
  simp only [ofJson?, Option.bind_eq_bind, Option.bind_eq_some_iff] at h
  obtain ⟨parts, -, h⟩ := h
  split at h
  · simp only [Option.bind_eq_some_iff, Option.pure_def, Option.some.injEq] at h
    obtain ⟨cls, -, name, -, block, hblock, rfl⟩ := h
    exact of_required hbody hblock
  · cases h

/-- One case for each number of parts and each tag with so many. -/
theorem Statement.plain_of_ofParts? {tag : String} {parts : List (Option Json)} {s : Statement}
    (h : ofParts? body tag parts = some s) : s.Plain := by
  unfold ofParts? at h
  simp only [Option.bind_eq_bind, Option.pure_def] at h
  split at h
  · split at h <;> cases h <;> constructor
  · split at h
    · obtain ⟨b, hb, rfl⟩ := Option.map_eq_some_iff.mp h
      exact .exclusive (of_required hbody hb)
    · split at h
      · obtain ⟨v, hv, rfl⟩ := Option.map_eq_some_iff.mp h
        exact .returnWith (of_optional Expression.plain_of_ofJson? hv)
      · obtain ⟨v, hv, hs⟩ := Option.map_eq_some_iff.mp h
        have hv := of_required Expression.plain_of_ofJson? hv
        split at hs
        · exact hs ▸ .raise hv
        · split at hs
          · exact hs ▸ .print hv
          · exact hs ▸ .perform hv
  · split at h
    · simp only [Option.bind_eq_some_iff, Option.some.injEq] at h
      obtain ⟨name, -, v, hv, rfl⟩ := h
      exact .declare (of_required Expression.plain_of_ofJson? hv)
    · split at h
      · simp only [Option.bind_eq_some_iff, Option.some.injEq] at h
        obtain ⟨t, ht, v, hv, rfl⟩ := h
        exact .assign (of_required Target.clean_of_ofJson? ht)
          (of_required Expression.plain_of_ofJson? hv)
      · split at h
        · simp only [Option.bind_eq_some_iff, Option.some.injEq] at h
          obtain ⟨bs, hbs, other, hother, rfl⟩ := h
          have hbs := of_required
            (fun _ _ => forall_of_listOf (Branch.plain_of_ofJson? hbody)) hbs
          exact .choose (fun b hb => (hbs b hb).1) (fun b hb => (hbs b hb).2)
            (of_optional hbody hother)
        · split at h
          · simp only [Option.bind_eq_some_iff, Option.some.injEq] at h
            obtain ⟨t, ht, b, hb, rfl⟩ := h
            exact .repeatWhile (of_required Expression.plain_of_ofJson? ht) (of_required hbody hb)
          · simp only [Option.bind_eq_some_iff, Option.some.injEq] at h
            obtain ⟨b, hb, hs, hhs, rfl⟩ := h
            exact .attempt (of_required hbody hb) (of_required
              (fun _ _ => forall_of_listOf (Handler.plain_of_ofJson? hbody)) hhs)
  · simp only [Option.bind_eq_some_iff, Option.some.injEq] at h
    obtain ⟨var, -, lower, hlower, upper, hupper, b, hb, rfl⟩ := h
    exact .repeatFor (of_required Expression.plain_of_ofJson? hlower)
      (of_required Expression.plain_of_ofJson? hupper) (of_required hbody hb)
  · cases h

end Bodies

theorem Statement.plain_of_decode? {inner : Bool} {fuel : Nat} (j : Json) (s : Statement)
    (h : decode? inner fuel j = some s) : s.Plain := by
  induction fuel generalizing inner j s with
  | zero => simp [decode?] at h
  | succ fuel ih =>
      simp only [decode?, Option.bind_eq_bind, Option.bind_eq_some_iff] at h
      obtain ⟨⟨tag, rest⟩, -, parts, -, hparts⟩ := h
      exact plain_of_ofParts? (fun _ _ => forall_of_listOf ih) hparts

theorem Body.plain_of_ofJson? (j : Json) (b : Body) (h : ofJson? j = some b) : b.Plain :=
  forall_of_listOf Statement.plain_of_decode? h

theorem ParamDecl.plain_of_ofJson? (j : Json) (p : ParamDecl) (h : ofJson? j = some p) :
    p.Plain := by
  unfold ofJson? at h
  split at h
  · cases h
    rintro e ⟨⟩
  · simp only [Option.bind_eq_bind, Option.bind_eq_some_iff, Option.pure_def,
      Option.some.injEq] at h
    obtain ⟨-, -, name, -, part, -, default, hdefault, rfl⟩ := h
    rintro e ⟨⟩
    exact of_required Expression.plain_of_ofJson? hdefault
  · cases h

theorem ProcedureDecl.plain_of_ofJson? (j : Json) (p : ProcedureDecl) (h : ofJson? j = some p) :
    p.Plain := by
  simp only [ofJson?, Option.bind_eq_bind, Option.bind_eq_some_iff] at h
  obtain ⟨parts, -, h⟩ := h
  split at h
  · simp only [Option.bind_eq_some_iff, Option.pure_def, Option.some.injEq] at h
    obtain ⟨name, -, params, hparams, block, hblock, rfl⟩ := h
    have hplain := of_withDefault (by simp)
      (fun _ _ => forall_of_listOf ParamDecl.plain_of_ofJson?) hparams
    exact ⟨hplain, of_withDefault (by simp [Body.Plain]) Body.plain_of_ofJson? hblock⟩
  · cases h

theorem ClassDecl.plain_of_ofJson? (j : Json) (c : ClassDecl) (h : ofJson? j = some c) :
    c.Plain := by
  simp only [ofJson?, Option.bind_eq_bind, Option.bind_eq_some_iff] at h
  obtain ⟨parts, -, h⟩ := h
  split at h
  · simp only [Option.bind_eq_some_iff, Option.pure_def, Option.some.injEq] at h
    obtain ⟨name, -, parent, -, methods, hmethods, ctor, hctor, rfl⟩ := h
    exact ⟨of_withDefault (by simp) (fun _ _ => forall_of_listOf ProcedureDecl.plain_of_ofJson?)
      hmethods, of_optional ProcedureDecl.plain_of_ofJson? hctor⟩
  · cases h

theorem RecordDecl.plain_of_ofJson? (j : Json) (r : RecordDecl) (h : ofJson? j = some r) :
    r.Plain := by
  simp only [ofJson?, Option.bind_eq_bind, Option.bind_eq_some_iff] at h
  obtain ⟨parts, -, h⟩ := h
  split at h
  · simp only [Option.bind_eq_some_iff, Option.pure_def, Option.some.injEq] at h
    obtain ⟨name, -, kind, -, fields, hfields, rfl⟩ := h
    refine of_withDefault (P := fun fields => (Json.obj fields).asMap = .obj fields) ?_ ?_ hfields
    · rfl
    · intro f fields hf
      obtain hmap : f.asMap = .obj fields := by
        cases hm : f.asMap <;> simp_all [Json.obj?]
      rw [← hmap, Json.asMap_asMap]
  · cases h

/-- A source that was read is plain. -/
theorem Source.plain_of_ofJson? {j : Json} {s : Source} (h : ofJson? j = some s) : s.Plain := by
  simp only [ofJson?, Option.bind_eq_bind, Option.bind_eq_some_iff] at h
  obtain ⟨parts, -, h⟩ := h
  split at h
  · simp only [Option.bind_eq_some_iff, Option.pure_def, Option.some.injEq] at h
    obtain ⟨procedures, hp, classes, hc, records, hr, main, hm, rfl⟩ := h
    exact ⟨of_withDefault (by simp) (fun _ _ => forall_of_listOf ProcedureDecl.plain_of_ofJson?) hp,
      of_withDefault (by simp) (fun _ _ => forall_of_listOf ClassDecl.plain_of_ofJson?) hc,
      of_withDefault (by simp) (fun _ _ => forall_of_listOf RecordDecl.plain_of_ofJson?) hr,
      of_withDefault (by simp [Body.Plain]) Body.plain_of_ofJson? hm⟩
  · cases h

/-! ### Plain sources are read back -/

theorem Body.toJson_eq_map (b : Body) : Body.toJson b = .arr (b.map Statement.toJson) := by
  rw [Body.toJson]
  congr 1
  induction b with
  | nil => simp [Body.toJsons]
  | cons s b ih => simp [Body.toJsons, ih]

theorem Branch.listToJson_eq_map (branches : List Branch) :
    Branch.listToJson branches = branches.map fun b =>
      .obj [("test", b.test.toJson), ("body", Body.toJson b.body)] := by
  induction branches with
  | nil => simp [Branch.listToJson]
  | cons b branches ih =>
      obtain ⟨test, body⟩ := b
      simp [Branch.listToJson, ih, Branch.test, Branch.body, Body.toJson]

theorem Handler.listToJson_eq_map (handlers : List Handler) :
    Handler.listToJson handlers = handlers.map fun h =>
      .obj (("class", .str h.className) :: (Json.optionalMember "binding" (h.binding.map .str) ++
        [("body", Body.toJson h.body)])) := by
  induction handlers with
  | nil => simp [Handler.listToJson]
  | cons h handlers ih =>
      obtain ⟨cls, name, body⟩ := h
      simp [Handler.listToJson, ih, Handler.className, Handler.binding, Handler.body, Body.toJson]

theorem Expression.ofJson?_toJson {e : Expression} (h : e.Plain) : ofJson? e.toJson = some e := by
  have htokens : (e.tokens.map Json.str).mapM Json.str? = some e.tokens :=
    mapM_map_eq_some fun _ _ => rfl
  obtain ⟨tokens, file, line, text⟩ := e
  obtain rfl : file = "" := h
  simp [ofJson?, toJson, decode, ofLocated, member?, Json.occurrences, Json.lookup,
    Decode.optional, listOf, withDefault, Json.str?, Json.nat?, htokens, Except.toOption]

namespace Statement

/-- The statement is read back from its document, wherever there is fuel for it. -/
def ReadBack (s : Statement) : Prop :=
  ∀ inner fuel, s.toJson.depth ≤ fuel → decode? inner fuel s.toJson = some s

/-- The tag and the members of a tagged object are told apart again. -/
theorem untag?_tagged {tag : String} {members : List (String × Json)} (inner : Bool)
    (htag : tag ∈ tags) (hkeys : ∀ m ∈ members, m.1 ≠ "t") :
    untag? inner (tagged tag members) = some (tag, .obj members) := by
  have honce : Json.occurrences "t" (("t", .str tag) :: members) ≤ 1 := by
    have hnone : Json.occurrences "t" members = 0 := by
      simpa [Json.occurrences] using fun k j hm => hkeys (k, j) hm
    simpa [Json.occurrences] using hnone.le
  have hrest : members.filter (fun m => !decide (m.1 = "t")) = members := by
    simpa [List.filter_eq_self] using fun k j hm => hkeys (k, j) hm
  have htag? : tag? inner (.str tag) = some tag := by simp [tag?, htag]
  simp [untag?, tagged, member?, honce, Json.lookup_cons_of_absent hkeys, required, htag?, hrest]

/-- A statement whose document is a tagged object is read back when its parts give it again, with
any reading of bodies that has fuel for the members of the object. -/
theorem readBack_of_tagged {s : Statement} (tag : String) (members : List (String × Json))
    (parts : List (Option Json)) (hs : s.toJson = tagged tag members) (htag : tag ∈ tags)
    (hkeys : ∀ m ∈ members, m.1 ≠ "t") (hparts : parts? (keysOf tag) (.obj members) = some parts)
    (hof : ∀ fuel, (∀ m ∈ members, m.2.depth ≤ fuel) →
      ofParts? (listOf (decode? true fuel)) tag parts = some s) : s.ReadBack := by
  intro inner fuel hdepth
  have huntag := untag?_tagged inner htag hkeys
  rw [hs] at hdepth ⊢
  have hmembers : ∀ m ∈ ("t", .str tag) :: members, m.2.depth < fuel := fun m hm =>
    (Json.depth_lt_of_mem_members hm).trans_le hdepth
  obtain ⟨less, rfl⟩ : ∃ less, fuel = less + 1 :=
    Nat.exists_eq_add_one.mpr (Nat.zero_lt_of_lt (hmembers _ List.mem_cons_self))
  have hless : ∀ m ∈ members, m.2.depth ≤ less := fun m hm =>
    Nat.le_of_lt_succ (hmembers m (List.mem_cons_of_mem _ hm))
  simpa [decode?, huntag, hparts] using hof less hless

/-- A body is read back when its statements are. -/
theorem ReadBack.body {b : Body} {fuel : Nat} (h : ∀ s ∈ b, s.ReadBack)
    (hdepth : (Body.toJson b).depth ≤ fuel) :
    listOf (decode? true fuel) (Body.toJson b) = some b := by
  rw [Body.toJson_eq_map] at hdepth ⊢
  exact listOf_arr_map fun s hs => h s hs true fuel
    ((Json.depth_lt_of_mem_items (List.mem_map_of_mem hs)).le.trans hdepth)

theorem ReadBack.branches {branches : List Branch} {fuel : Nat}
    (htest : ∀ b ∈ branches, b.test.Plain) (hbody : ∀ b ∈ branches, ∀ s ∈ b.body, s.ReadBack)
    (hdepth : (Json.arr (Branch.listToJson branches)).depth ≤ fuel) :
    listOf (Branch.ofJson? (listOf (decode? true fuel))) (.arr (Branch.listToJson branches)) =
      some branches := by
  rw [Branch.listToJson_eq_map] at hdepth ⊢
  refine listOf_arr_map fun b hb => ?_
  have hlt := (Json.depth_lt_of_mem_items (List.mem_map_of_mem hb)).le.trans hdepth
  have hblock := ReadBack.body (hbody b hb) ((Json.depth_lt_of_mem_members
    (show ("body", Body.toJson b.body) ∈ _ by simp)).le.trans hlt)
  have hparts : parts? ["test", "body"]
      (.obj [("test", b.test.toJson), ("body", Body.toJson b.body)]) =
      some [some b.test.toJson, some (Body.toJson b.body)] := rfl
  have hread : Branch.ofJson? (listOf (decode? true fuel))
      (.obj [("test", b.test.toJson), ("body", Body.toJson b.body)]) =
      some (.mk b.test b.body) := by
    simp [Branch.ofJson?, hparts, required, Expression.ofJson?_toJson (htest b hb), hblock]
  rw [hread]
  cases b
  rfl

theorem ReadBack.handlers {handlers : List Handler} {fuel : Nat}
    (hbody : ∀ h ∈ handlers, ∀ s ∈ h.body, s.ReadBack)
    (hdepth : (Json.arr (Handler.listToJson handlers)).depth ≤ fuel) :
    listOf (Handler.ofJson? (listOf (decode? true fuel))) (.arr (Handler.listToJson handlers)) =
      some handlers := by
  rw [Handler.listToJson_eq_map] at hdepth ⊢
  refine listOf_arr_map fun h hh => ?_
  have hlt := (Json.depth_lt_of_mem_items (List.mem_map_of_mem hh)).le.trans hdepth
  have hblock := ReadBack.body (hbody h hh) ((Json.depth_lt_of_mem_members
    (show ("body", Body.toJson h.body) ∈ _ by simp)).le.trans hlt)
  have hparts : parts? ["class", "binding", "body"]
      (.obj (("class", .str h.className) :: (Json.optionalMember "binding" (h.binding.map .str) ++
        [("body", Body.toJson h.body)]))) =
      some [some (.str h.className), h.binding.map .str, some (Body.toJson h.body)] := by
    cases h.binding <;> rfl
  have hread : Handler.ofJson? (listOf (decode? true fuel))
      (.obj (("class", .str h.className) :: (Json.optionalMember "binding" (h.binding.map .str) ++
        [("body", Body.toJson h.body)]))) = some (.mk h.className h.binding h.body) := by
    rw [Handler.ofJson?, hparts]
    simp [required, Json.str?, optional_str, hblock]
  rw [hread]
  cases h
  rfl

theorem toJson_choose (branches : List Branch) (otherwise : Option Body) :
    toJson (.choose branches otherwise) = tagged "If"
      (("branches", .arr (Branch.listToJson branches)) ::
        Json.optionalMember "otherwise" (otherwise.map Body.toJson)) := by
  cases otherwise <;> rfl

theorem toJson_returnWith (value : Option Expression) :
    toJson (.returnWith value) =
      tagged "Return" (Json.optionalMember "value" (value.map Expression.toJson)) := by
  cases value <;> rfl

/-! One lemma for each kind of statement: its document names its parts, and each of them is read
back. -/

/-- A statement of nothing but an expression. -/
theorem readBack_of_value {s : Statement} {tag key : String} {value : Expression}
    (hs : s.toJson = tagged tag [(key, value.toJson)]) (htag : tag ∈ tags) (hkey : key ≠ "t")
    (hparts : parts? (keysOf tag) (.obj [(key, value.toJson)]) = some [some value.toJson])
    (hof : ∀ body, ofParts? body tag [some value.toJson] = some s) : s.ReadBack :=
  readBack_of_tagged tag _ _ hs htag (List.forall_mem_singleton.mpr hkey) hparts
    fun _ _ => hof _

theorem readBack_declare {name : String} {value : Expression} (hv : value.Plain) :
    (declare name value).ReadBack := by
  refine readBack_of_tagged "Declare" [("name", .str name), ("value", value.toJson)]
    [some (.str name), some value.toJson] rfl (by decide) (by simp) rfl fun fuel _ => ?_
  simp [ofParts?, required, Json.str?, Expression.ofJson?_toJson hv]

theorem readBack_assign {target : Target} {value : Expression} (ht : target.Clean)
    (hv : value.Plain) : (assign target value).ReadBack := by
  refine readBack_of_tagged "Assign" [("target", .str target.display), ("value", value.toJson)]
    [some (.str target.display), some value.toJson] rfl (by decide) (by simp) rfl fun fuel _ => ?_
  simp [ofParts?, required, Target.ofJson?, Json.str?, Target.read?_display ht,
    Expression.ofJson?_toJson hv]

theorem readBack_choose {branches : List Branch} {otherwise : Option Body}
    (htest : ∀ b ∈ branches, b.test.Plain) (hbody : ∀ b ∈ branches, ∀ s ∈ b.body, s.ReadBack)
    (hotherwise : ∀ body, otherwise = some body → ∀ s ∈ body, s.ReadBack) :
    (choose branches otherwise).ReadBack := by
  refine readBack_of_tagged "If" _
    [some (.arr (Branch.listToJson branches)), otherwise.map Body.toJson]
    (toJson_choose branches otherwise) (by decide)
    (by cases otherwise <;> simp [Json.optionalMember]) (by cases otherwise <;> rfl)
    fun fuel hfuel => ?_
  have hbranches := ReadBack.branches htest hbody (hfuel ("branches", _) (by simp))
  have hread : optional (listOf (decode? true fuel)) (otherwise.map Body.toJson) =
      some otherwise := by
    refine optional_map (by simp [Body.toJson]) fun body h => ?_
    obtain rfl : otherwise = some body := h
    exact ReadBack.body (hotherwise body rfl) (hfuel ("otherwise", Body.toJson body)
      (by simp [Json.optionalMember]))
  simp [ofParts?, required, hbranches, hread]

theorem readBack_repeatFor {var : Option String} {lower upper : Expression} {body : Body}
    (hlower : lower.Plain) (hupper : upper.Plain) (hbody : ∀ s ∈ body, s.ReadBack) :
    (repeatFor var lower upper body).ReadBack := by
  refine readBack_of_tagged "Repeat" _
    [var.map .str, some lower.toJson, some upper.toJson, some (Body.toJson body)] rfl (by decide)
    (by cases var <;> simp [Json.optionalMember]) (by cases var <;> rfl) fun fuel hfuel => ?_
  have hread := ReadBack.body hbody (hfuel ("body", Body.toJson body) (by simp [Body.toJson]))
  simp [ofParts?, required, optional_str, Expression.ofJson?_toJson hlower,
    Expression.ofJson?_toJson hupper, hread]

theorem readBack_repeatWhile {test : Expression} {body : Body} (htest : test.Plain)
    (hbody : ∀ s ∈ body, s.ReadBack) : (repeatWhile test body).ReadBack := by
  refine readBack_of_tagged "While" [("test", test.toJson), ("body", Body.toJson body)]
    [some test.toJson, some (Body.toJson body)] rfl (by decide) (by simp) rfl fun fuel hfuel => ?_
  have hread := ReadBack.body hbody (hfuel ("body", Body.toJson body) (by simp))
  simp [ofParts?, required, Expression.ofJson?_toJson htest, hread]

theorem readBack_attempt {body : Body} {handlers : List Handler} (hbody : ∀ s ∈ body, s.ReadBack)
    (hhandlers : ∀ h ∈ handlers, ∀ s ∈ h.body, s.ReadBack) : (attempt body handlers).ReadBack := by
  refine readBack_of_tagged "Try"
    [("body", Body.toJson body), ("handlers", .arr (Handler.listToJson handlers))]
    [some (Body.toJson body), some (.arr (Handler.listToJson handlers))] rfl (by decide) (by simp)
    rfl fun fuel hfuel => ?_
  have hread := ReadBack.body hbody (hfuel ("body", Body.toJson body) (by simp))
  have hreads := ReadBack.handlers hhandlers (hfuel ("handlers", _) (by simp))
  simp [ofParts?, required, hread, hreads]

theorem readBack_exclusive {body : Body} (hbody : ∀ s ∈ body, s.ReadBack) :
    (exclusive default body).ReadBack := by
  refine readBack_of_tagged "Exclusive" [("body", Body.toJson body)] [some (Body.toJson body)] rfl
    (by decide) (by simp) rfl fun fuel hfuel => ?_
  have hread := ReadBack.body hbody (hfuel ("body", Body.toJson body) (by simp))
  simp [ofParts?, required, hread]

theorem readBack_returnWith {value : Option Expression} (hv : ∀ e, value = some e → e.Plain) :
    (returnWith value).ReadBack := by
  refine readBack_of_tagged "Return" _ [value.map Expression.toJson] (toJson_returnWith value)
    (by decide) (by cases value <;> simp [Json.optionalMember]) (by cases value <;> rfl)
    fun fuel _ => ?_
  have hvalue : optional Expression.ofJson? (value.map Expression.toJson) = some value :=
    optional_map (by simp [Expression.toJson]) fun e he => Expression.ofJson?_toJson (hv e he)
  simp [ofParts?, hvalue]

/-- Plain statements are read back from their documents. -/
theorem Plain.readBack {s : Statement} (h : s.Plain) : s.ReadBack := by
  induction h with
  | declare hv => exact readBack_declare hv
  | assign ht hv => exact readBack_assign ht hv
  | choose ht _ _ ihb iho => exact readBack_choose ht ihb iho
  | repeatFor hlower hupper _ ih => exact readBack_repeatFor hlower hupper ih
  | repeatWhile ht _ ih => exact readBack_repeatWhile ht ih
  | attempt _ _ ihb ihh => exact readBack_attempt ihb ihh
  | raise hv =>
      refine readBack_of_value rfl (by decide) (by decide) rfl fun body => ?_
      simp [ofParts?, required, Expression.ofJson?_toJson hv]
  | exclusive _ ih => exact readBack_exclusive ih
  | print hv =>
      refine readBack_of_value rfl (by decide) (by decide) rfl fun body => ?_
      simp [ofParts?, required, Expression.ofJson?_toJson hv]
  | returnWith hv => exact readBack_returnWith hv
  | breakOut => exact readBack_of_tagged "Break" [] [] rfl (by decide) (by simp) rfl fun _ _ => rfl
  | continueOn =>
      exact readBack_of_tagged "Continue" [] [] rfl (by decide) (by simp) rfl fun _ _ => rfl
  | perform hv =>
      refine readBack_of_value rfl (by decide) (by decide) rfl fun body => ?_
      simp [ofParts?, required, Expression.ofJson?_toJson hv]

end Statement

theorem Body.ofJson?_toJson {b : Body} (h : b.Plain) : ofJson? b.toJson = some b := by
  rw [ofJson?, Body.toJson_eq_map]
  exact listOf_arr_map fun s hs => (h s hs).readBack false _
    (Json.depth_lt_of_mem_items (List.mem_map_of_mem hs)).le

theorem ParamDecl.ofJson?_toJson {p : ParamDecl} (h : p.Plain) : ofJson? p.toJson = some p := by
  obtain ⟨name, default⟩ := p
  cases default with
  | none => rfl
  | some default =>
      have hdefault := Expression.ofJson?_toJson (h default rfl)
      simp [ofJson?, toJson, member?, Json.occurrences, Json.lookup, required, Json.str?, hdefault]

theorem ProcedureDecl.ofJson?_toJson {p : ProcedureDecl} (h : p.Plain) :
    ofJson? p.toJson = some p := by
  have hparams : listOf ParamDecl.ofJson? (.arr (p.params.map ParamDecl.toJson)) = some p.params :=
    listOf_arr_map fun q hq => ParamDecl.ofJson?_toJson (h.params q hq)
  have hparts : parts? ["name", "params", "body"] p.toJson =
      some [some (.str p.name), some (.arr (p.params.map ParamDecl.toJson)),
        some (Body.toJson p.body)] := rfl
  simp [ofJson?, hparts, required, withDefault, Json.str?, hparams, Body.ofJson?_toJson h.body]

theorem ClassDecl.ofJson?_toJson {c : ClassDecl} (h : c.Plain) : ofJson? c.toJson = some c := by
  have hmethods : listOf ProcedureDecl.ofJson? (.arr (c.methods.map ProcedureDecl.toJson)) =
      some c.methods := listOf_arr_map fun m hm => ProcedureDecl.ofJson?_toJson (h.methods m hm)
  have hctor : optional ProcedureDecl.ofJson? (c.ctor.map ProcedureDecl.toJson) = some c.ctor :=
    optional_map (by simp [ProcedureDecl.toJson])
      fun m hm => ProcedureDecl.ofJson?_toJson (h.ctor m hm)
  have hparts : parts? ["name", "parent", "methods", "constructor"] c.toJson =
      some [some (.str c.name), c.parent.map .str,
        some (.arr (c.methods.map ProcedureDecl.toJson)), c.ctor.map ProcedureDecl.toJson] := by
    obtain ⟨name, parent, methods, ctor⟩ := c
    cases parent <;> cases ctor <;> rfl
  simp [ofJson?, hparts, required, withDefault, Json.str?, optional_str, hmethods, hctor]

theorem RecordDecl.ofJson?_toJson {r : RecordDecl} (h : r.Plain) : ofJson? r.toJson = some r := by
  have hparts : parts? ["name", "kind", "fields"] r.toJson =
      some [some (.str r.name), some (.str r.kind), some (.obj r.fields)] := rfl
  have hfields : (Json.obj r.fields).asMap = .obj r.fields := h
  simp [ofJson?, hparts, required, withDefault, Json.str?, hfields, Json.obj?]

/-- A plain source is read back from its document. -/
theorem Source.ofJson?_toJson {s : Source} (h : s.Plain) : ofJson? s.toJson = some s := by
  have hprocedures : listOf ProcedureDecl.ofJson? (.arr (s.procedures.map ProcedureDecl.toJson)) =
      some s.procedures :=
    listOf_arr_map fun p hp => ProcedureDecl.ofJson?_toJson (h.procedures p hp)
  have hclasses : listOf ClassDecl.ofJson? (.arr (s.classes.map ClassDecl.toJson)) =
      some s.classes := listOf_arr_map fun c hc => ClassDecl.ofJson?_toJson (h.classes c hc)
  have hrecords : listOf RecordDecl.ofJson? (.arr (s.records.map RecordDecl.toJson)) =
      some s.records := listOf_arr_map fun r hr => RecordDecl.ofJson?_toJson (h.records r hr)
  have hparts : parts? ["procedures", "classes", "records", "main"] s.toJson =
      some [some (.arr (s.procedures.map ProcedureDecl.toJson)),
        some (.arr (s.classes.map ClassDecl.toJson)),
        some (.arr (s.records.map RecordDecl.toJson)), some (Body.toJson s.main)] := rfl
  simp [ofJson?, hparts, withDefault, hprocedures, hclasses, hrecords, Body.ofJson?_toJson h.main]

/-! ### Files and locks are not written -/

mutual

/-- The statement without the files and locks in it. -/
def Statement.unplaced : Statement → Statement
  | .declare name value => .declare name (value.inFile "")
  | .assign target value => .assign target (value.inFile "")
  | .choose branches none => .choose (Branch.unplacedList branches) none
  | .choose branches (some body) =>
      .choose (Branch.unplacedList branches) (some (Body.unplaced body))
  | .repeatFor var lower upper body =>
      .repeatFor var (lower.inFile "") (upper.inFile "") (Body.unplaced body)
  | .repeatWhile test body => .repeatWhile (test.inFile "") (Body.unplaced body)
  | .attempt body handlers => .attempt (Body.unplaced body) (Handler.unplacedList handlers)
  | .raise value => .raise (value.inFile "")
  | .exclusive _ body => .exclusive 0 (Body.unplaced body)
  | .print value => .print (value.inFile "")
  | .returnWith none => .returnWith none
  | .returnWith (some value) => .returnWith (some (value.inFile ""))
  | .breakOut => .breakOut
  | .continueOn => .continueOn
  | .perform value => .perform (value.inFile "")

/-- The body without the files and locks in it. -/
def Body.unplaced : List Statement → List Statement
  | [] => []
  | s :: rest => s.unplaced :: Body.unplaced rest

/-- The branches without the files and locks in them. -/
def Branch.unplacedList : List Branch → List Branch
  | [] => []
  | .mk test body :: rest =>
      .mk (test.inFile "") (Body.unplaced body) :: Branch.unplacedList rest

/-- The handlers without the files and locks in them. -/
def Handler.unplacedList : List Handler → List Handler
  | [] => []
  | .mk cls name body :: rest => .mk cls name (Body.unplaced body) :: Handler.unplacedList rest

end

theorem Expression.toJson_inFile (e : Expression) (file : String) :
    (e.inFile file).toJson = e.toJson := rfl

mutual

theorem Statement.toJson_unplaced : ∀ s : Statement, s.unplaced.toJson = s.toJson
  | .declare .. | .assign .. | .raise _ | .print _ | .returnWith none | .returnWith (some _)
  | .breakOut | .continueOn | .perform _ => by
      simp [Statement.unplaced, Statement.toJson, Expression.toJson_inFile]
  | .choose branches none => by
      simp [Statement.unplaced, Statement.toJson, Branch.listToJson_unplacedList branches]
  | .choose branches (some body) => by
      simp [Statement.unplaced, Statement.toJson, Branch.listToJson_unplacedList branches,
        Body.toJsons_unplaced body]
  | .repeatFor _ _ _ body | .repeatWhile _ body | .exclusive _ body => by
      simp [Statement.unplaced, Statement.toJson, Expression.toJson_inFile,
        Body.toJsons_unplaced body]
  | .attempt body handlers => by
      simp [Statement.unplaced, Statement.toJson, Body.toJsons_unplaced body,
        Handler.listToJson_unplacedList handlers]

theorem Body.toJsons_unplaced : ∀ b : List Statement,
    Body.toJsons (Body.unplaced b) = Body.toJsons b
  | [] => by simp [Body.unplaced]
  | s :: rest => by
      simp [Body.unplaced, Body.toJsons, Statement.toJson_unplaced s, Body.toJsons_unplaced rest]

theorem Branch.listToJson_unplacedList : ∀ branches : List Branch,
    Branch.listToJson (Branch.unplacedList branches) = Branch.listToJson branches
  | [] => by simp [Branch.unplacedList]
  | .mk test body :: rest => by
      simp [Branch.unplacedList, Branch.listToJson, Expression.toJson_inFile,
        Body.toJsons_unplaced body, Branch.listToJson_unplacedList rest]

theorem Handler.listToJson_unplacedList : ∀ handlers : List Handler,
    Handler.listToJson (Handler.unplacedList handlers) = Handler.listToJson handlers
  | [] => by simp [Handler.unplacedList]
  | .mk cls name body :: rest => by
      simp [Handler.unplacedList, Handler.listToJson, Body.toJsons_unplaced body,
        Handler.listToJson_unplacedList rest]

end

def ParamDecl.unplaced (p : ParamDecl) : ParamDecl :=
  { p with default := p.default.map (Expression.inFile "") }

def ProcedureDecl.unplaced (p : ProcedureDecl) : ProcedureDecl :=
  { p with params := p.params.map ParamDecl.unplaced, body := Body.unplaced p.body }

def ClassDecl.unplaced (c : ClassDecl) : ClassDecl :=
  { c with
    methods := c.methods.map ProcedureDecl.unplaced, ctor := c.ctor.map ProcedureDecl.unplaced }

/-- The source without the files and locks in it. -/
def Source.unplaced (s : Source) : Source :=
  { s with
    procedures := s.procedures.map ProcedureDecl.unplaced
    classes := s.classes.map ClassDecl.unplaced
    main := Body.unplaced s.main }

theorem ParamDecl.toJson_unplaced (p : ParamDecl) : p.unplaced.toJson = p.toJson := by
  obtain ⟨name, default⟩ := p
  cases default <;> rfl

theorem ProcedureDecl.toJson_unplaced (p : ProcedureDecl) : p.unplaced.toJson = p.toJson := by
  simp [unplaced, toJson, Body.toJson, Body.toJsons_unplaced, ParamDecl.toJson_unplaced]

theorem ClassDecl.toJson_unplaced (c : ClassDecl) : c.unplaced.toJson = c.toJson := by
  have hmap : ProcedureDecl.toJson ∘ ProcedureDecl.unplaced = ProcedureDecl.toJson :=
    funext ProcedureDecl.toJson_unplaced
  simp [unplaced, toJson, hmap]

/-- The document of a source does not depend on the files and locks in it. -/
theorem Source.toJson_unplaced (s : Source) : s.unplaced.toJson = s.toJson := by
  simp [unplaced, toJson, Body.toJson, Body.toJsons_unplaced, ProcedureDecl.toJson_unplaced,
    ClassDecl.toJson_unplaced]

namespace Source

/-- Reading undoes writing: a source that can be read at all is read back from its document, and so
is every source that differs from it in files and locks only. Hence writing what was read and
reading it again gives the same document, however the source was spelled first. -/
theorem read_back {j : Json} {s : Source} (h : ofJson? j = some s) :
    ofJson? s.toJson = some s ∧ (ofJson? s.toJson).map toJson = some s.toJson ∧
      ∀ t : Source, t.unplaced = s → ofJson? t.toJson = some s ∧ t.toJson = s.toJson := by
  have hback : ofJson? s.toJson = some s := ofJson?_toJson (plain_of_ofJson? h)
  refine ⟨hback, by rw [hback, Option.map_some], ?_⟩
  rintro t rfl
  rw [toJson_unplaced] at hback ⊢
  exact ⟨hback, rfl⟩

/-- A source spelled in ways that writing does not use: parts in order, bare tokens, blanks around
a target, a key of a record twice. -/
def mixedSpelling : Json :=
  .obj [
    ("procedures", .arr [.arr [.str "f", .arr [.str "x",
      .obj [("name", .str "y"), ("default", .arr [.str "1", .str "+", .str "2"])]],
      .arr [.obj [("target", .str " x . y "), ("t", .str "Assign"), ("value", .arr [.str "y"])]]]]),
    ("records", .arr [.obj [("name", .str "r"),
      ("fields", .obj [("k", .int 1), ("k", .int 2)])]]),
    ("main", .arr [.arr [.str "Exclusive", .arr [.arr [.int 10]]]])]

/-- The source that `mixedSpelling` spells. -/
def mixedSource : Source where
  procedures := [⟨"f", [⟨"x", none⟩, ⟨"y", some ⟨["1", "+", "2"], ⟨"", 0, "1 + 2"⟩⟩⟩],
    [.assign ⟨"x", some "y"⟩ ⟨["y"], ⟨"", 0, "y"⟩⟩]⟩]
  classes := []
  records := [⟨"r", "record", [("k", .int 2)]⟩]
  main := [.exclusive 0 [.breakOut]]

theorem read_back_mixedSource :
    ofJson? mixedSource.toJson = some mixedSource ∧
      (ofJson? mixedSource.toJson).map toJson = some mixedSource.toJson ∧
      ∀ t : Source, t.unplaced = mixedSource →
        ofJson? t.toJson = some mixedSource ∧ t.toJson = mixedSource.toJson :=
  read_back (show ofJson? mixedSpelling = some mixedSource by rfl)

end Source

end Statute
