import Statute.Proofs.Registry.Hierarchy
import Statute.Proofs.Scope.Refinement
import Statute.Session

/-!
# Suggestions in messages

A message about a name without a meaning tells the known names that come close. In every place that
tells them, the known names are exactly those for which the same request would have succeeded: those
that can be resolved, called or read as a member, or that a class can have as its parent. So such a
message is a function of the set of these names, and the order in which scopes, objects, records and
registries list them does not show.
-/

namespace Statute

open Text (distance nearest offered closestBy_of_known suggestBy_of_known mem_sorted)

variable {name : String} {known : Finset String} {d : String → String → ℕ}

/-! ### Names and the registry -/

theorem Registry.mem_names {r : Registry} : name ∈ r.names ↔ (r.lookup? name).isSome = true := by
  rw [names, mem_sorted, Bindings.mem_names, lookup?, Option.isSome_map]

namespace Setting

variable {s : Setting} {h : Heap} {env : Env}

theorem mem_candidates : name ∈ h.visibleNames env ++ s.registry.names ↔
    (s.resolve? h env name).isSome = true := by
  rw [List.mem_append, Heap.mem_visibleNames, Registry.mem_names, resolve?]
  cases h.lookup? env name <;> simp

/-- The message about an undefined name tells which of the names that can be resolved come close. -/
theorem undefinedBy_eq (name : String) (hknown : ∀ n, n ∈ known ↔ (s.resolve? h env n).isSome) :
    s.undefinedBy d h env name = .nameNotDefined name (offered d name known) := by
  rw [undefinedBy, suggestBy_of_known fun n => (hknown n).trans mem_candidates.symm]

end Setting

/-- The message about a call of an unknown name tells which names of the program come close. -/
theorem Session.callBy_eq_failure (s : Session) (args : List Value)
    (hknown : ∀ n, n ∈ known ↔ (s.setting.registry.lookup? n).isSome) (hname : name ∉ known) :
    s.callBy d name args = (s, .failure (.nameNotDefined name (nearest d name known))) := by
  rw [hknown, Option.not_isSome_iff_eq_none] at hname
  rw [callBy, hname, ← closestBy_of_known fun n => (hknown n).trans Registry.mem_names.symm]
  rfl

/-! ### Members -/

theorem Class.mem_methodNames {c : Class} :
    name ∈ c.methodNames ↔ (c.method? name).isSome = true := by
  simp only [methodNames, method?, List.mem_eraseDups, List.mem_flatMap,
    List.findSome?_isSome_iff]
  exact exists_congr fun l => and_congr_right fun _ => Bindings.mem_names

namespace Heap

variable {h : Heap} {v : Value}

theorem mem_memberNames {r : ObjectRef} : name ∈ h.memberNames r ↔
    (h.field? r name).isSome = true ∨ (h.method? r name).isSome = true := by
  simp only [memberNames, mem_sorted, Text.distinct, List.mem_eraseDups, List.mem_append,
    Bindings.mem_names, Class.mem_methodNames, field?, method?]

/-- The failure of a value that does not have a field, given the names that come close. -/
def lacking (h : Heap) (v : Value) (field : String) (close : List String) : Failure :=
  match h.unbox v with
  | .object r => .fieldNotDefined field ((h.object r).cls.name ++ " instance") close
  | .record r =>
      .fieldNotDefined field ((h.record r).kind ++ " '" ++ (h.record r).name ++ "'") close
  | w => .invalidType ("cannot read field '" ++ field ++ "' of " ++ w.typeName)

/-- The names of the members of a value, in the order in which they are listed. -/
def members (h : Heap) (v : Value) : List String :=
  match h.unbox v with
  | .object r => h.memberNames r
  | .record r => Text.sorted (h.record r).fields.names
  | _ => []

/-- The listed members are those that can be read, and a failure looks for others among them. -/
theorem memberBy_cases (d : String → String → ℕ) (h : Heap) (v : Value) (name : String) :
    (∃ w, h.memberBy d v name = .ok w) ∧ name ∈ h.members v ∨
      h.memberBy d v name = .error (h.lacking v name (Text.closestBy d name (h.members v))) ∧
        name ∉ h.members v := by
  unfold memberBy lacking members
  cases h.unbox v with
  | object r =>
      dsimp only
      rw [mem_memberNames]
      cases hfield : h.field? r name with
      | some b => exact .inl ⟨⟨_, rfl⟩, .inl rfl⟩
      | none =>
          cases hmethod : h.method? r name with
          | some p => exact .inl ⟨⟨_, rfl⟩, .inr rfl⟩
          | none => exact .inr ⟨rfl, by simp⟩
  | record r =>
      dsimp only
      rw [mem_sorted, Bindings.mem_names]
      cases hfield : (h.record r).fields.get? name with
      | some w => exact .inl ⟨⟨w, rfl⟩, rfl⟩
      | none => exact .inr ⟨rfl, by simp⟩
  | _ => exact .inr ⟨rfl, List.not_mem_nil⟩

theorem mem_members_iff : name ∈ h.members v ↔ ∃ w, h.memberBy d v name = .ok w := by
  rcases h.memberBy_cases d v name with ⟨hread, hmem⟩ | ⟨herror, hmem⟩
  · exact iff_of_true hmem hread
  · exact iff_of_false hmem fun ⟨w, hw⟩ => nomatch herror.symm.trans hw

/-- The message about a missing field tells which of the members that can be read come close. -/
theorem memberBy_eq_error (hknown : ∀ n, n ∈ known ↔ ∃ w, h.memberBy d v n = .ok w)
    (hname : name ∉ known) :
    h.memberBy d v name = .error (h.lacking v name (nearest d name known)) := by
  have hmembers : ∀ n, n ∈ known ↔ n ∈ h.members v := fun n => (hknown n).trans mem_members_iff.symm
  rcases h.memberBy_cases d v name with ⟨-, hmem⟩ | ⟨herror, -⟩
  · exact absurd ((hmembers name).mpr hmem) hname
  · rw [herror, closestBy_of_known hmembers]

end Heap

/-! ### Parents -/

namespace Registry.Draft

variable {distance : String → String → ℕ} {d : Draft} {waiting : List ClassDecl}

theorem mem_classNames : name ∈ d.classNames ↔ ∃ c, (name, Entry.classDef c) ∈ d.entries := by
  simp only [classNames, Bindings.names, List.mem_map, List.mem_filter]
  constructor
  · rintro ⟨⟨n, e⟩, ⟨hmem, hclass⟩, rfl⟩
    cases e with
    | classDef c => exact ⟨c, hmem⟩
    | _ => cases hclass
  · rintro ⟨c, hmem⟩
    exact ⟨_, ⟨hmem, rfl⟩, rfl⟩

/-- The message about a parent that is no class tells which of the classes come close, those that
are entered and those that wait. -/
theorem unknownParentBy_eq (name parent : String)
    (hknown : ∀ n, n ∈ known ↔
      (∃ c ∈ waiting, c.name = n) ∨ ∃ c, (n, Entry.classDef c) ∈ d.entries) :
    let f := Failure.nameNotDefined parent (nearest distance parent known)
    d.unknownParentBy distance waiting name parent =
      { f with message := "parent class of '" ++ name ++ "': " ++ f.message } := by
  have hclasses : ∀ n, n ∈ known ↔ n ∈ waiting.map (·.name) ++ d.classNames := fun n => by
    rw [hknown, List.mem_append, List.mem_map, mem_classNames]
  rw [unknownParentBy, closestBy_of_known hclasses]

end Registry.Draft

/-! ### All suggestions -/

/-- What is suggested for a misspelt name depends on the set of the candidates alone, whatever
measures the distance of names: it is the first three, in order of distance and name, of those that
are near, and none of them comes twice. So neither the order of candidates nor repetitions among
them can be seen in a message. A message about a name that cannot be resolved, called or read is
made of the set of those that can. The one about a parent that is no class is made of the set of the
classes there are, so a program whose names do not collide is refused with the same words in
whatever order its classes are declared. -/
theorem suggestions_of_known_names :
    (∀ (d : String → String → ℕ) (input : String) (candidates : List String),
      Text.closestBy d input candidates = nearest d input candidates.toFinset ∧
        (Text.closestBy d input candidates).Nodup ∧
        ∀ candidates' : List String, (∀ c, c ∈ candidates' ↔ c ∈ candidates) →
          Text.closestBy d input candidates' = Text.closestBy d input candidates) ∧
      (∀ (d : String → String → ℕ) (input : String) (visible : List String),
        Text.suggestBy d input visible = offered d input visible.toFinset ∧
          (Text.suggestBy d input visible).Nodup ∧
          ∀ visible' : List String, (∀ c, c ∈ visible' ↔ c ∈ visible) →
            Text.suggestBy d input visible' = Text.suggestBy d input visible) ∧
      (∀ (d : String → String → ℕ) (s : Setting) (h : Heap) (env : Env) (name : String)
        (known : Finset String), (∀ n, n ∈ known ↔ (s.resolve? h env n).isSome) →
          s.undefinedBy d h env name = .nameNotDefined name (offered d name known)) ∧
      (∀ (d : String → String → ℕ) (s : Session) (name : String) (args : List Value)
        (known : Finset String),
        (∀ n, n ∈ known ↔ (s.setting.registry.lookup? n).isSome) → name ∉ known →
          s.callBy d name args = (s, .failure (.nameNotDefined name (nearest d name known)))) ∧
      (∀ (d : String → String → ℕ) (h : Heap) (v : Value) (name : String) (known : Finset String),
        (∀ n, n ∈ known ↔ ∃ w, h.memberBy d v n = .ok w) → name ∉ known →
          h.memberBy d v name = .error (h.lacking v name (nearest d name known))) ∧
      (∀ (distance : String → String → ℕ) (d : Registry.Draft) (waiting : List ClassDecl)
        (name parent : String) (known : Finset String),
        (∀ n, n ∈ known ↔
            (∃ c ∈ waiting, c.name = n) ∨ ∃ c, (n, Entry.classDef c) ∈ d.entries) →
          let f := Failure.nameNotDefined parent (nearest distance parent known)
          d.unknownParentBy distance waiting name parent =
            { f with message := "parent class of '" ++ name ++ "': " ++ f.message }) ∧
      ∀ (h : Heap) (file : String) (extensions : List Extension) (source : Source)
        (classes : List ClassDecl), (source.names extensions).Nodup →
          classes.Perm source.classes →
          Registry.build h file extensions { source with classes := classes } =
            Registry.build h file extensions source := by
  refine ⟨fun d input candidates => ⟨Text.closestBy_eq_nearest d input candidates, ?_, fun _ =>
    Text.closestBy_congr⟩, fun d input visible => ⟨Text.suggestBy_eq_offered d input visible, ?_,
    ?_⟩, fun _ _ _ _ name _ => Setting.undefinedBy_eq name,
    fun _ s _ args _ => s.callBy_eq_failure args, fun _ _ _ _ _ => Heap.memberBy_eq_error,
    fun _ _ _ name parent _ => Registry.Draft.unknownParentBy_eq name parent, fun h file _ _ _ =>
    Registry.build_eq_of_perm h file⟩
  · rw [Text.closestBy_eq_nearest]
    exact Text.nodup_nearest d input _
  · rw [Text.suggestBy_eq_offered]
    exact Text.nodup_offered d input _
  · intro visible' hsame
    rw [Text.suggestBy_eq_offered, Text.suggestBy_eq_offered, List.toFinset.ext hsame]

def ledger : Setting :=
  ⟨⟨[("totals", .record 0)], [], ""⟩, .standard, .none⟩

/-- A heap with that record and with a global variable. -/
def ledgerHeap : Heap :=
  { Heap.empty with
    scopes := #[⟨"globals", [("total", .int 3)]⟩]
    records := #[⟨"totals", "object", [("amount", .int 3)]⟩] }

/-- Repeated candidates, and a misspelt variable, record, member and parent. -/
theorem suggestions_of_known_names_ledger :
    Text.closestBy distance "totl" ["totals", "total", "totals"] = ["total", "totals"] ∧
      Text.suggest "ture" ["fine", "fine"] = ["true"] ∧
      ledger.undefined ledgerHeap [0] "totl" = .nameNotDefined "totl" ["total", "totals"] ∧
      Session.call ⟨ledger, .new .standard⟩ "total" [] =
        (⟨ledger, .new .standard⟩, .failure (.nameNotDefined "total" ["totals"])) ∧
      ledgerHeap.member (.record 0) "amont" =
        .error (.fieldNotDefined "amont" "object 'totals'" ["amount"]) ∧
      (Registry.Draft.unknownParent ⟨[], 0⟩ [⟨"Mistake", none, [], none⟩] "Typo" "Mistke").message =
        "parent class of 'Typo': name 'Mistke' is not defined; did you mean: Mistake?" ∧
      Registry.build .empty "" []
          { Registry.kinship with classes := Registry.kinship.classes.reverse } =
        Registry.build .empty "" [] Registry.kinship := by
  obtain ⟨hclosest, hsuggest, hundefined, hcall, hmember, hparent, hbuild⟩ :=
    suggestions_of_known_names
  have hresolve : ∀ n, n ∈ ["total", "totals"].toFinset ↔
      (ledger.resolve? ledgerHeap [0] n).isSome := fun n => by
    rw [← Setting.mem_candidates, show ledgerHeap.visibleNames [0] ++ ledger.registry.names =
      ["total", "totals"] by cbv, List.mem_toFinset]
  have hlookup : ∀ n, n ∈ ["totals"].toFinset ↔ (ledger.registry.lookup? n).isSome := fun n => by
    rw [← Registry.mem_names, show ledger.registry.names = ["totals"] by cbv, List.mem_toFinset]
  have hread : ∀ n, n ∈ ["amount"].toFinset ↔
      ∃ w, ledgerHeap.memberBy distance (.record 0) n = .ok w :=
    fun n => by
      rw [← Heap.mem_members_iff, show ledgerHeap.members (.record 0) = ["amount"] by cbv,
        List.mem_toFinset]
  have hclasses : ∀ n, n ∈ ["Mistake"].toFinset ↔
      (∃ c ∈ [(⟨"Mistake", none, [], none⟩ : ClassDecl)], c.name = n) ∨
        ∃ c, (n, Entry.classDef c) ∈ ([] : Bindings Entry) := fun n => by
    simp [eq_comm]
  refine ⟨?_, ?_, ?_, ?_, ?_, ?_, ?_⟩
  · rw [(hclosest distance "totl" ["total", "totals"]).2.2 _ (by simp)]
    cbv
  · rw [Text.suggest, (hsuggest distance "ture" ["fine"]).2.2 _ (by simp)]
    cbv
  · rw [Setting.undefined, hundefined distance _ _ _ _ _ hresolve, ← Text.suggestBy_eq_offered]
    cbv
  · rw [Session.call, hcall distance ⟨ledger, .new .standard⟩ "total" [] _ hlookup (by decide),
      ← Text.closestBy_eq_nearest,
      show Text.closestBy distance "total" ["totals"] = ["totals"] by cbv]
  · rw [Heap.member, hmember distance _ _ _ _ hread (by decide), ← Text.closestBy_eq_nearest]
    cbv
  · rw [Registry.Draft.unknownParent, hparent distance _ _ _ _ _ hclasses,
      ← Text.closestBy_eq_nearest]
    cbv
  · exact hbuild .empty "" [] Registry.kinship _ (by decide +kernel) (List.reverse_perm _)

end Statute
