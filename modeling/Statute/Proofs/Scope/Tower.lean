import Mathlib.Data.Finmap
import Mathlib.Data.Finset.Sort
import Mathlib.Data.String.Basic
import Statute.Scope

/-!
# Stacks of finite maps

The plain view of scopes: a stack of finite maps from names, each of which stands either on the one
right below it or on the root of the stack, or on what is outside of the root. The maps that a name
is looked up in are a list, innermost first, and an update changes the first of them that it applies
to.

A stack of addresses has the same shape. Where no address occurs twice, changing what is stored at
one address is the same as updating the stack of what is stored.
-/

namespace Statute

/-- Where on a stack something is done. -/
inductive Spot where
  | root
  | current
deriving DecidableEq, Repr

/-- What a cell of a stack stands on: the one right below it, or what is left of the root without
its innermost `k` cells. -/
inductive Footing where
  | below
  | ground (k : Nat)
deriving DecidableEq, Repr

/-- Cells that are stacked on a chain of cells, innermost first, each with what it stands on. -/
structure Tower (α : Type) where
  root : List α
  inner : List (α × Footing)

namespace Tower

variable {α β : Type}

/-- The chain at the top of cells stacked on `root`. -/
def chainOn (root : List α) : List (α × Footing) → List α
  | [] => root
  | (a, on) :: rest => a :: match on with
      | .below => chainOn root rest
      | .ground k => root.drop k

/-- The cells that are seen from a spot, innermost first. -/
def chain (t : Tower α) : Spot → List α
  | .root => t.root
  | .current => chainOn t.root t.inner

def cells (t : Tower α) : List α :=
  t.inner.map Prod.fst ++ t.root

/-- The cells that a cell on top would stand on, innermost first. -/
def under (t : Tower α) : Footing → List α
  | .below => t.chain .current
  | .ground k => t.root.drop k

def raise (t : Tower α) (cell : α × Footing) : Tower α :=
  { t with inner := cell :: t.inner }

/-- The stack without its innermost cell; the root stays. -/
def pop (t : Tower α) : Tower α :=
  { t with inner := t.inner.tail }

/-- The stack of the images of the cells. -/
def map (f : α → β) (t : Tower α) : Tower β :=
  ⟨t.root.map f, t.inner.map (Prod.map f id)⟩

def updateFirst (p : α → Bool) (f : α → α) : List α → List α
  | [] => []
  | a :: rest => if p a then f a :: rest else a :: updateFirst p f rest

/-- Changes the first cell of the root that satisfies `p`, apart from the innermost `k`. -/
def updateRoot (p : α → Bool) (f : α → α) (k : Nat) (t : Tower α) : Tower α :=
  { t with root := t.root.take k ++ updateFirst p f (t.root.drop k) }

/-- Changes the first cell that satisfies `p` and is seen from the top of `inner`. -/
def updateOn (p : α → Bool) (f : α → α) (root : List α) : List (α × Footing) → Tower α
  | [] => updateRoot p f 0 ⟨root, []⟩
  | (a, on) :: rest =>
      if p a then ⟨root, (f a, on) :: rest⟩
      else match on with
        | .below => (updateOn p f root rest).raise (a, .below)
        | .ground k => updateRoot p f k ⟨root, (a, .ground k) :: rest⟩

/-- Changes the first cell that satisfies `p` and is seen from a spot. -/
def update (p : α → Bool) (f : α → α) (t : Tower α) : Spot → Tower α
  | .root => t.updateRoot p f 0
  | .current => updateOn p f t.root t.inner

variable {t : Tower α} {root : List α}

theorem chainOn_cons (root : List α) (a : α) (on : Footing) (rest : List (α × Footing)) :
    chainOn root ((a, on) :: rest) = a :: (Tower.mk root rest).under on := by
  cases on <;> rfl

theorem chainOn_sublist (root : List α) (inner : List (α × Footing)) :
    (chainOn root inner).Sublist (inner.map Prod.fst ++ root) := by
  induction inner with
  | nil => exact List.Sublist.refl root
  | cons cell rest ih =>
      obtain ⟨a, on⟩ := cell
      cases on with
      | below => exact ih.cons_cons a
      | ground k =>
          exact ((List.drop_sublist k root).trans (List.sublist_append_right _ _)).cons_cons a

theorem chain_sublist (t : Tower α) (on : Spot) : (t.chain on).Sublist t.cells := by
  cases on with
  | root => exact List.sublist_append_right _ _
  | current => exact chainOn_sublist t.root t.inner

theorem chain_map (f : α → β) (t : Tower α) (on : Spot) :
    (t.map f).chain on = (t.chain on).map f := by
  cases on with
  | root => rfl
  | current =>
      obtain ⟨root, inner⟩ := t
      induction inner with
      | nil => rfl
      | cons cell rest ih =>
          obtain ⟨a, on⟩ := cell
          cases on with
          | below => exact congrArg (f a :: ·) ih
          | ground k => exact congrArg (f a :: ·) List.map_drop.symm

theorem map_congr {f g : α → β} (h : ∀ a ∈ t.cells, f a = g a) : t.map f = t.map g := by
  obtain ⟨root, inner⟩ := t
  simp only [cells, List.mem_append, List.mem_map] at h
  simp only [map, mk.injEq]
  refine ⟨List.map_congr_left fun a ha => h a (.inr ha), List.map_congr_left fun cell hcell => ?_⟩
  rw [Prod.map, Prod.map, h cell.1 (.inl ⟨cell, hcell, rfl⟩)]

/-! ## Updates -/

variable [DecidableEq α] {p : β → Bool} {f : β → β} {g : α → β}

/-- The images of cells, that of the cell found changed. -/
def changedAt (f : β → β) (g : α → β) (found : Option α) (a : α) : β :=
  if found = some a then f (g a) else g a

theorem changedAt_of_mem {as : List α} {found : Option α} {a : α} (hfound : ∀ b ∈ found, b ∈ as)
    (ha : a ∉ as) : changedAt f g found a = g a := by
  refine if_neg fun h => ha ?_
  exact hfound a (Option.mem_def.mpr h)

theorem changedAt_of_ne {a b : α} (h : a ≠ b) : changedAt f g (some a) b = g b :=
  if_neg fun hab => h (Option.some.inj hab)

theorem updateFirst_map {as : List α} (hdistinct : as.Nodup) :
    updateFirst p f (as.map g) = as.map (changedAt f g (as.find? (p ∘ g))) := by
  induction as with
  | nil => rfl
  | cons a as ih =>
      obtain ⟨hnew, hdistinct⟩ := List.nodup_cons.mp hdistinct
      rw [List.map_cons, updateFirst, List.map_cons]
      by_cases ha : p (g a) = true
      · rw [if_pos ha, List.find?_cons_of_pos (p := p ∘ g) ha, changedAt, if_pos rfl]
        congr 1
        refine List.map_congr_left fun b hb => (changedAt_of_ne ?_).symm
        rintro rfl
        exact hnew hb
      · rw [if_neg ha, List.find?_cons_of_neg (p := p ∘ g) ha, ih hdistinct,
          changedAt_of_mem (fun b => List.mem_of_find?_eq_some) hnew]

/-- An update of the root leaves the cells above it alone, and those it does not apply to. -/
theorem updateRoot_map (hdistinct : t.cells.Nodup) (k : Nat) :
    (t.map g).updateRoot p f k = t.map (changedAt f g ((t.root.drop k).find? (p ∘ g))) := by
  obtain ⟨root, inner⟩ := t
  obtain ⟨-, hroot, hdisjoint⟩ := List.nodup_append.mp hdistinct
  have hfound : ∀ b ∈ (root.drop k).find? (p ∘ g), b ∈ root.drop k :=
    fun b => List.mem_of_find?_eq_some
  refine (mk.injEq ..).mpr ⟨?_, ?_⟩
  · rw [← List.take_append_drop k root] at hroot
    obtain ⟨-, hdrop, hapart⟩ := List.nodup_append.mp hroot
    have hskipped : (root.take k).map g =
        (root.take k).map (changedAt f g ((root.drop k).find? (p ∘ g))) := by
      refine List.map_congr_left fun a ha => (changedAt_of_mem hfound ?_).symm
      exact fun hmem => hapart a ha a hmem rfl
    change (root.map g).take k ++ updateFirst p f ((root.map g).drop k) = _
    rw [← List.map_take, ← List.map_drop, updateFirst_map hdrop, hskipped, ← List.map_append,
      List.take_append_drop]
  · refine List.map_congr_left fun cell hcell => ?_
    rw [Prod.map, Prod.map, changedAt_of_mem hfound]
    intro hmem
    exact hdisjoint cell.1 (List.mem_map_of_mem hcell) cell.1 (List.mem_of_mem_drop hmem) rfl

theorem updateOn_cons_of_pos {a : β} (ha : p a = true) (on : Footing)
    (rest : List (β × Footing)) {root : List β} :
    updateOn p f root ((a, on) :: rest) = ⟨root, (f a, on) :: rest⟩ := by
  cases on <;> exact if_pos ha

theorem updateOn_map {inner : List (α × Footing)} (hdistinct : (Tower.mk root inner).cells.Nodup) :
    updateOn p f (root.map g) (inner.map (Prod.map g id)) =
      (Tower.mk root inner).map (changedAt f g ((chainOn root inner).find? (p ∘ g))) := by
  induction inner with
  | nil => exact updateRoot_map hdistinct 0
  | cons cell rest ih =>
      obtain ⟨a, on⟩ := cell
      obtain ⟨hnew, hbelow⟩ : a ∉ (Tower.mk root rest).cells ∧ (Tower.mk root rest).cells.Nodup :=
        List.nodup_cons.mp hdistinct
      rw [chainOn_cons]
      by_cases ha : p (g a) = true
      · have hother : ∀ b ∈ (Tower.mk root rest).cells, g b = changedAt f g (some a) b := by
          intro b hb
          refine (changedAt_of_ne ?_).symm
          rintro rfl
          exact hnew hb
        have hhere : changedAt f g (some a) a = f (g a) := if_pos rfl
        rw [List.find?_cons_of_pos (p := p ∘ g) ha]
        refine (updateOn_cons_of_pos ha on _).trans ?_
        change ((Tower.mk root rest).map g).raise (f (g a), on) =
          ((Tower.mk root rest).map (changedAt f g (some a))).raise (changedAt f g (some a) a, on)
        rw [map_congr hother, hhere]
      · rw [List.find?_cons_of_neg (p := p ∘ g) ha]
        cases on with
        | ground k => exact (if_neg ha).trans (updateRoot_map hdistinct k)
        | below =>
            have hfound : ∀ b ∈ (chainOn root rest).find? (p ∘ g), b ∈ (Tower.mk root rest).cells :=
              fun b hb => (chainOn_sublist root rest).mem (List.mem_of_find?_eq_some hb)
            have hhere := changedAt_of_mem (f := f) (g := g) hfound hnew
            refine (if_neg ha).trans ?_
            change (updateOn p f (root.map g) (rest.map (Prod.map g id))).raise (g a, .below) =
              ((Tower.mk root rest).map (changedAt f g _)).raise (changedAt f g _ a, .below)
            rw [ih hbelow]
            exact congrArg (fun b => Tower.raise _ (b, .below)) hhere.symm

/-- Where no cell occurs twice, an update changes the image of one cell. -/
theorem update_map (hdistinct : t.cells.Nodup) (on : Spot) :
    (t.map g).update p f on = t.map (changedAt f g ((t.chain on).find? (p ∘ g))) := by
  cases on with
  | root => exact updateRoot_map hdistinct 0
  | current => exact updateOn_map hdistinct

end Tower

/-! ## Finite maps -/

/-- Names with what they are bound to, as a finite map. -/
abbrev Vars (α : Type) := Finmap fun _ : String => α

namespace Vars

variable {α : Type} {m : Vars α} {ms : List (Vars α)} {x : String}

/-- The names bound by a list of maps: map by map, in order within a map, each once. -/
def visible : List (Vars α) → List String
  | [] => []
  | m :: ms => m.keys.sort ++ (visible ms).filter (· ∉ m.keys)

/-- Which of the maps binds a name first. -/
def place (ms : List (Vars α)) (x : String) : Nat :=
  ms.findIdx (x ∈ ·)

theorem mem_visible : x ∈ visible ms ↔ ∃ m ∈ ms, x ∈ m := by
  induction ms with
  | nil => simp [visible]
  | cons m ms ih =>
      rw [visible, List.mem_append, Finset.mem_sort, List.mem_filter, decide_eq_true_eq, ih,
        List.exists_mem_cons_iff, Finmap.mem_keys]
      tauto

theorem place_cons_of_mem (hx : x ∈ m) (ms : List (Vars α)) : place (m :: ms) x = 0 := by
  simp [place, List.findIdx_cons, hx]

theorem place_cons_of_notMem (hx : x ∉ m) (ms : List (Vars α)) :
    place (m :: ms) x = place ms x + 1 := by
  simp [place, List.findIdx_cons, hx]

/-- The visible names are ordered by the map that binds them first, and there by the alphabet. -/
theorem pairwise_visible (ms : List (Vars α)) :
    (visible ms).Pairwise fun x y => place ms x < place ms y ∨ place ms x = place ms y ∧ x < y := by
  induction ms with
  | nil => exact .nil
  | cons m ms ih =>
      refine List.pairwise_append.mpr ⟨?_, ?_, ?_⟩
      · refine m.keys.sortedLT_sort.pairwise.imp_of_mem fun {x y} hx hy hlt => ?_
        rw [Finset.mem_sort, Finmap.mem_keys] at hx hy
        rw [place_cons_of_mem hx, place_cons_of_mem hy]
        exact Or.inr ⟨rfl, hlt⟩
      · refine (ih.filter _).imp_of_mem fun {x y} hx hy hlt => ?_
        simp only [List.mem_filter, decide_eq_true_eq, Finmap.mem_keys] at hx hy
        rw [place_cons_of_notMem hx.2, place_cons_of_notMem hy.2]
        exact hlt.imp Nat.succ_lt_succ (And.imp_left (congrArg Nat.succ))
      · intro x hx y hy
        rw [Finset.mem_sort, Finmap.mem_keys] at hx
        simp only [List.mem_filter, decide_eq_true_eq, Finmap.mem_keys] at hy
        rw [place_cons_of_mem hx, place_cons_of_notMem hy.2]
        exact Or.inl (Nat.succ_pos _)

end Vars

namespace Bindings

variable {α : Type}

def toVars (bs : Bindings α) : Vars α :=
  bs.foldr (fun b m => m.insert b.1 b.2) ∅

@[simp] theorem lookup_toVars (bs : Bindings α) (x : String) : bs.toVars.lookup x = bs.get? x := by
  induction bs with
  | nil => rfl
  | cons b bs ih =>
      obtain ⟨n, a⟩ := b
      rw [get?_cons]
      change ((toVars bs).insert n a).lookup x = _
      by_cases hx : x = n
      · rw [hx, Finmap.lookup_insert, if_pos rfl]
      · rw [Finmap.lookup_insert_of_ne _ hx, if_neg hx, ih]

theorem toVars_set (bs : Bindings α) (name : String) (a : α) :
    (set name a bs).toVars = bs.toVars.insert name a := by
  refine Finmap.ext_lookup fun x => ?_
  rw [lookup_toVars, get?_set]
  by_cases hx : x = name
  · rw [hx, Finmap.lookup_insert, if_pos rfl]
  · rw [Finmap.lookup_insert_of_ne _ hx, if_neg hx, lookup_toVars]

theorem mem_toVars {bs : Bindings α} {x : String} : x ∈ bs.toVars ↔ (bs.get? x).isSome = true := by
  rw [← Finmap.lookup_isSome, lookup_toVars]

theorem mem_names {bs : Bindings α} {x : String} : x ∈ bs.names ↔ (bs.get? x).isSome = true := by
  induction bs with
  | nil => simp [names]
  | cons b bs ih =>
      obtain ⟨n, a⟩ := b
      rw [get?_cons]
      change x ∈ n :: names bs ↔ _
      by_cases hx : x = n
      · simp [hx]
      · rw [List.mem_cons, if_neg hx, ← ih]
        exact or_iff_right hx

end Bindings

/-! ## Names in order, each once -/

namespace Text

theorem distinct_filter (p : String → Bool) (ss : List String) :
    distinct (ss.filter p) = (distinct ss).filter p := by
  match ss with
  | [] => rfl
  | s :: ss =>
      have hlength : (ss.filter fun t => !t == s).length ≤ ss.length := List.length_filter_le _ _
      have hrest := distinct_filter p (ss.filter fun t => !t == s)
      rw [distinct, distinct, List.eraseDups_cons]
      by_cases hs : p s = true
      · rw [List.filter_cons_of_pos hs, List.filter_cons_of_pos hs, List.eraseDups_cons,
          List.filter_filter]
        rw [distinct, distinct, List.filter_filter] at hrest
        simp only [Bool.and_comm] at hrest ⊢
        rw [hrest]
      · have hskip : ss.filter p = (ss.filter fun t => !t == s).filter p := by
          rw [List.filter_filter]
          refine List.filter_congr fun t _ => ?_
          by_cases ht : t = s
          · simpa [ht] using hs
          · simp [ht]
        rw [List.filter_cons_of_neg hs, List.filter_cons_of_neg hs, hskip]
        exact hrest
termination_by ss.length

theorem nodup_distinct (ss : List String) : (distinct ss).Nodup := by
  match ss with
  | [] => exact .nil
  | s :: ss =>
      have hlength : (ss.filter fun t => !t == s).length ≤ ss.length := List.length_filter_le _ _
      rw [distinct, List.eraseDups_cons]
      refine List.nodup_cons.mpr ⟨?_, nodup_distinct (ss.filter fun t => !t == s)⟩
      simp [List.mem_eraseDups]
termination_by ss.length

theorem distinct_sublist (ss : List String) : (distinct ss).Sublist ss := by
  match ss with
  | [] => exact .slnil
  | s :: ss =>
      have hlength : (ss.filter fun t => !t == s).length ≤ ss.length := List.length_filter_le _ _
      rw [distinct, List.eraseDups_cons]
      exact ((distinct_sublist _).trans List.filter_sublist).cons_cons s
termination_by ss.length

/-- The names of a scope in order are the keys of its map in order. -/
theorem distinct_sorted_names {α : Type} (bs : Bindings α) :
    distinct (sorted bs.names) = bs.toVars.keys.sort := by
  have hsorted : (distinct (sorted bs.names)).Pairwise (· ≤ ·) := by
    refine List.Pairwise.sublist (distinct_sublist _) ?_
    refine (List.pairwise_mergeSort (fun a b c => ?_) (fun a b => ?_) bs.names).imp
      of_decide_eq_true
    · simpa using le_trans
    · simpa using le_total a b
  refine List.Perm.eq_of_pairwise (fun a b _ _ => le_antisymm) hsorted
    (bs.toVars.keys.pairwise_sort (· ≤ ·)) ?_
  refine (List.perm_ext_iff_of_nodup (nodup_distinct _) (Finset.sort_nodup _ _)).mpr fun x => ?_
  rw [distinct, List.mem_eraseDups, mem_sorted, Finset.mem_sort, Finmap.mem_keys,
    Bindings.mem_toVars, Bindings.mem_names]

/-- Names that are listed scope by scope, each where it comes first. -/
theorem distinct_flatMap_names {α : Type} (bss : List (Bindings α)) :
    distinct (bss.flatMap fun bs => sorted bs.names) = Vars.visible (bss.map Bindings.toVars) := by
  induction bss with
  | nil => rfl
  | cons bs bss ih =>
      have hrest : (bss.flatMap fun bs => sorted bs.names).removeAll (sorted bs.names) =
          (bss.flatMap fun bs => sorted bs.names).filter (· ∉ bs.toVars.keys) := by
        refine List.filter_congr fun x _ => ?_
        have hmem : x ∈ sorted bs.names ↔ x ∈ bs.toVars.keys := by
          rw [mem_sorted, Finmap.mem_keys, Bindings.mem_toVars, Bindings.mem_names]
        rw [decide_not, ← decide_eq_decide.mpr hmem, List.elem_eq_mem]
      rw [List.flatMap_cons, distinct, List.eraseDups_append, hrest]
      change distinct _ ++ distinct _ = _
      rw [distinct_sorted_names, distinct_filter, ih]
      rfl

end Text

end Statute
