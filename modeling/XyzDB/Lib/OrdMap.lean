import Mathlib

/-!
# Ordered maps and lists of their entries

`Std.ExtTreeMap` stands for an ordered map. These are the facts about maps that are collected
from lists: what is in a map collected from a list with distinct keys, and in one collected
from the entries of another map, each of them mapped or dropped. A batch of writes is a list of
keys, each with its new value or none (`putAll`). A change that reads and writes only the keys of
a set (`LocalOn`) commutes with one of a disjoint set.
-/

namespace OrdMap

open Std Std.ExtTreeMap

variable {α β γ δ : Type} [DecidableEq α] [Ord α] [TransOrd α] [LawfulEqOrd α] [DecidableEq γ]
  [Ord γ] [TransOrd γ] [LawfulEqOrd γ]

variable {l : List (α × β)}

lemma getElem?_ofList_iff (h : l.Pairwise fun p q => p.1 ≠ q.1) :
    (ofList l)[k]? = some v ↔ (k, v) ∈ l := by
  have hpair : l.Pairwise fun p q => ¬ compare p.1 q.1 = .eq :=
    h.imp fun hne heq => hne (LawfulEqOrd.eq_of_compare heq)
  constructor
  · intro hget
    by_cases hk : k ∈ l.map Prod.fst
    · obtain ⟨⟨k', v'⟩, hmem, rfl⟩ := List.mem_map.mp hk
      have hv : (ofList l)[k']? = some v' :=
        getElem?_ofList_of_mem ReflOrd.compare_self hpair hmem
      rw [hget, Option.some.injEq] at hv
      rwa [hv]
    · rw [getElem?_ofList_of_contains_eq_false (by simpa using hk)] at hget
      cases hget
  · exact getElem?_ofList_of_mem ReflOrd.compare_self hpair

lemma mem_toList_ofList (h : l.Pairwise fun p q => p.1 ≠ q.1) :
    (k, v) ∈ (ofList l).toList ↔ (k, v) ∈ l := by
  rw [mem_toList_iff_getElem?_eq_some, getElem?_ofList_iff h]

omit [DecidableEq α] in
lemma getElem?_insertMany_of_mem : ∀ {l : List (α × β)} {m : ExtTreeMap α β},
    (∀ x ∈ l, x.1 = k → x.2 = v) → (k, v) ∈ l ∨ m[k]? = some v → (m.insertMany l)[k]? = some v
  | [], m, _, h => by simpa using h
  | (a, b) :: l, m, hfun, h => by
    rw [insertMany_cons]
    refine getElem?_insertMany_of_mem (fun y hy => hfun y (.tail _ hy)) ?_
    rw [getElem?_insert]
    by_cases ha : compare a k = .eq
    · right
      rw [if_pos ha]
      exact congrArg some (hfun (a, b) List.mem_cons_self (LawfulEqOrd.eq_of_compare ha))
    · rw [if_neg ha]
      refine h.imp_left fun h => (List.mem_cons.mp h).resolve_left fun heq => ha ?_
      rw [← (Prod.mk.inj heq).1]
      exact ReflOrd.compare_self

omit [DecidableEq α] in
/-- A list that gives a key no two values is looked up in any order. -/
lemma getElem?_ofList_of_mem' (hfun : ∀ x ∈ l, x.1 = k → x.2 = v) (h : (k, v) ∈ l) :
    (ofList l)[k]? = some v := by
  rw [ofList_eq_insertMany_empty]
  exact getElem?_insertMany_of_mem hfun (.inl h)

omit [DecidableEq α] in
lemma pairwise_toList (m : ExtTreeMap α β) : m.toList.Pairwise fun p q => p.1 ≠ q.1 :=
  distinct_keys_toList.imp fun hne heq => hne (by rw [heq]; exact ReflOrd.compare_self)

omit [DecidableEq α] in
/-- A map collected from the entries of a map, each taken through `f`. When `f` gives no two
entries the same key, it has exactly what `f` makes of the entries. -/
lemma getElem?_ofList_filterMap {m : ExtTreeMap α β} {f : α × β → Option (γ × δ)}
    (hinj : ∀ (k : α) v (k' : α) v' c d d', m[k]? = some v → m[k']? = some v' →
      f (k, v) = some (c, d) →
      f (k', v') = some (c, d') → k = k') {c : γ} {d : δ} :
    (ofList (m.toList.filterMap f))[c]? = some d ↔
      ∃ (k : α) (v : β), m[k]? = some v ∧ f (k, v) = some (c, d) := by
  have hmem : ∀ {k : α} {v : β}, (k, v) ∈ m.toList → m[k]? = some v :=
    mem_toList_iff_getElem?_eq_some.mp
  rw [getElem?_ofList_iff]
  · constructor
    · intro h
      obtain ⟨⟨k, v⟩, hkv, hf⟩ := List.mem_filterMap.mp h
      exact ⟨k, v, hmem hkv, hf⟩
    · rintro ⟨k, v, hkv, hf⟩
      exact List.mem_filterMap.mpr ⟨(k, v), mem_toList_iff_getElem?_eq_some.mpr hkv, hf⟩
  · refine List.pairwise_filterMap.mpr ((pairwise_toList m).imp_of_mem ?_)
    rintro ⟨k, v⟩ ⟨k', v'⟩ hk hk' hne ⟨c, d⟩ hc ⟨c', d'⟩ hc' rfl
    exact hne (hinj k v k' v' _ _ _ (hmem hk) (hmem hk') hc hc')

omit [DecidableEq α] in
lemma ext_iff_some {m m' : ExtTreeMap α β}
    (h : ∀ (k : α) (v : β), m[k]? = some v ↔ m'[k]? = some v) : m = m' :=
  ext_getElem? fun k => Option.ext fun v => h k v

/-- A new value for a key, or none. -/
def put (m : ExtTreeMap α β) (w : α × Option β) : ExtTreeMap α β :=
  match w.2 with
  | some v => m.insert w.1 v
  | none => m.erase w.1

/-- Writes in order. -/
def putAll (m : ExtTreeMap α β) (ws : List (α × Option β)) : ExtTreeMap α β := ws.foldl put m

section

variable {m : ExtTreeMap α β} {ws : List (α × Option β)} {k : α} {v : β}

lemma getElem?_put (w : α × Option β) : (put m w)[k]? = if w.1 = k then w.2 else m[k]? := by
  obtain ⟨k', x⟩ := w
  have hcmp : compare k' k = .eq ↔ k' = k :=
    ⟨LawfulEqOrd.eq_of_compare, fun h => by rw [h]; exact ReflOrd.compare_self⟩
  cases x with
  | some v => simp only [put, getElem?_insert, hcmp]
  | none => simp only [put, getElem?_erase, hcmp]

lemma getElem?_insert {k' : α} : (m.insert k' v)[k]? = if k' = k then some v else m[k]? :=
  getElem?_put (k', some v)

lemma getElem?_erase {k' : α} : (m.erase k')[k]? = if k' = k then none else m[k]? :=
  getElem?_put (k', none)

lemma getElem?_putAll_eq_some (h : (putAll m ws)[k]? = some v) :
    m[k]? = some v ∨ (k, some v) ∈ ws := by
  induction ws generalizing m with
  | nil => exact .inl h
  | cons w ws ih =>
    rcases ih h with h | h
    · rw [getElem?_put] at h
      split at h
      · next hk => exact .inr (by rw [← hk, ← h]; exact List.mem_cons_self)
      · exact .inl h
    · exact .inr (.tail _ h)

lemma getElem?_putAll_of_not_mem (h : ∀ w ∈ ws, w.1 ≠ k) : (putAll m ws)[k]? = m[k]? := by
  induction ws generalizing m with
  | nil => rfl
  | cons w ws ih =>
    show (putAll (put m w) ws)[k]? = m[k]?
    rw [ih fun w' hw' => h w' (.tail _ hw'), getElem?_put, if_neg (h w List.mem_cons_self)]

lemma getElem?_putAll_of_agree {x : Option β} (h : ∀ w ∈ ws, w.1 = k → w.2 = x) :
    (putAll m ws)[k]? = x ∨ (putAll m ws)[k]? = m[k]? := by
  induction ws generalizing m with
  | nil => exact .inr rfl
  | cons w ws ih =>
    have hrest := ih (m := put m w) fun w' hw' => h w' (.tail _ hw')
    by_cases hk : w.1 = k
    · rw [getElem?_put, if_pos hk, h w List.mem_cons_self hk, or_self] at hrest
      exact .inl hrest
    · rw [getElem?_put, if_neg hk] at hrest
      exact hrest

lemma getElem?_putAll_of_mem {x : Option β} (h : ∀ w ∈ ws, w.1 = k → w.2 = x)
    (hmem : (k, x) ∈ ws) : (putAll m ws)[k]? = x := by
  induction ws generalizing m with
  | nil => cases hmem
  | cons w ws ih =>
    have h' : ∀ w' ∈ ws, w'.1 = k → w'.2 = x := fun w' hw' => h w' (.tail _ hw')
    rcases List.mem_cons.mp hmem with rfl | hmem
    · rcases getElem?_putAll_of_agree (m := put m (k, x)) h' with heq | heq
      · exact heq
      · rwa [getElem?_put, if_pos rfl] at heq
    · exact ih h' hmem

lemma getElem?_putAll_new {new : List ι} {f : ι → α} {g : ι → β}
    (hfree : ∀ x ∈ new, m[f x]? = none) (hagree : ∀ x ∈ new, ∀ y ∈ new, f x = f y → g x = g y) :
    (putAll m (new.map fun x => (f x, some (g x))))[k]? = some v ↔
      m[k]? = some v ∨ ∃ x ∈ new, f x = k ∧ g x = v := by
  constructor
  · intro h
    refine (getElem?_putAll_eq_some h).imp_right fun h => ?_
    obtain ⟨x, hx, heq⟩ := List.mem_map.mp h
    obtain ⟨hk, hv⟩ := Prod.mk.inj heq
    exact ⟨x, hx, hk, Option.some.inj hv⟩
  · rintro (h | ⟨x, hx, rfl, rfl⟩)
    · rw [getElem?_putAll_of_not_mem, h]
      intro w hw hk
      obtain ⟨x, hx, rfl⟩ := List.mem_map.mp hw
      have hnone := hfree x hx
      rw [show f x = k from hk, h] at hnone
      cases hnone
    · refine getElem?_putAll_of_mem (fun w hw hk => ?_) (List.mem_map.mpr ⟨x, hx, rfl⟩)
      obtain ⟨y, hy, rfl⟩ := List.mem_map.mp hw
      exact congrArg some (hagree y hy x hx hk)

end

/-- A change of a map that reads and writes the keys of a set only. -/
structure LocalOn (S : Set α) (F : ExtTreeMap α β → ExtTreeMap α β) : Prop where
  outside : ∀ m k, k ∉ S → (F m)[k]? = m[k]?
  inside : ∀ m m', (∀ k ∈ S, m[k]? = m'[k]?) → ∀ k ∈ S, (F m)[k]? = (F m')[k]?

namespace LocalOn

variable {S T : Set α} {F G : ExtTreeMap α β → ExtTreeMap α β}

omit [DecidableEq α] [LawfulEqOrd α] in
lemma id : LocalOn S (fun m : ExtTreeMap α β => m) := ⟨fun _ _ _ => rfl, fun _ _ h => h⟩

omit [DecidableEq α] [LawfulEqOrd α] in
lemma comp (hF : LocalOn S F) (hG : LocalOn S G) : LocalOn S fun m => F (G m) where
  outside m k hk := (hF.outside _ k hk).trans (hG.outside m k hk)
  inside m m' h := hF.inside _ _ (hG.inside m m' h)

omit [DecidableEq α] [LawfulEqOrd α] in
lemma mono (hF : LocalOn S F) (hST : S ⊆ T) : LocalOn T F where
  outside m k hk := hF.outside m k fun h => hk (hST h)
  inside m m' h k hk := by
    by_cases hS : k ∈ S
    · exact hF.inside m m' (fun k hk => h k (hST hk)) k hS
    · rw [hF.outside m k hS, hF.outside m' k hS, h k hk]

/-- What is written to one key may depend on what was there. -/
lemma modify {k : α} (hk : k ∈ S) (f : Option β → β) :
    LocalOn S fun m : ExtTreeMap α β => m.insert k (f m[k]?) where
  outside m k' hk' := by
    rw [OrdMap.getElem?_insert, if_neg fun (heq : k = k') => hk' (heq ▸ hk)]
  inside m m' h k' hk' := by
    rw [OrdMap.getElem?_insert, OrdMap.getElem?_insert, h k hk, h k' hk']

lemma insert {k : α} (hk : k ∈ S) (v : β) : LocalOn S fun m : ExtTreeMap α β => m.insert k v :=
  modify hk fun _ => v

lemma erase {k : α} (hk : k ∈ S) : LocalOn S fun m : ExtTreeMap α β => m.erase k where
  outside m k' hk' := by
    rw [OrdMap.getElem?_erase, if_neg fun (heq : k = k') => hk' (heq ▸ hk)]
  inside m m' h k' hk' := by
    rw [OrdMap.getElem?_erase, OrdMap.getElem?_erase, h k' hk']

omit [DecidableEq α] [LawfulEqOrd α] in
lemma foldl {ι : Type} {f : ExtTreeMap α β → ι → ExtTreeMap α β} {l : List ι}
    (h : ∀ x ∈ l, LocalOn S fun m => f m x) : LocalOn S fun m => l.foldl f m := by
  induction l with
  | nil => exact id
  | cons x l ih =>
    obtain ⟨hx, hl⟩ := List.forall_mem_cons.mp h
    exact (ih hl).comp hx

omit [DecidableEq α] in
/-- **Changes of disjoint sets commute.** -/
theorem commute (hF : LocalOn S F) (hG : LocalOn T G) (hdisjoint : Disjoint S T)
    (m : ExtTreeMap α β) : F (G m) = G (F m) := by
  refine ext_getElem? fun k => ?_
  by_cases hS : k ∈ S
  · have hT : ∀ k ∈ S, k ∉ T := fun k hk => Set.disjoint_left.mp hdisjoint hk
    rw [hG.outside _ k (hT k hS)]
    exact hF.inside _ _ (fun k hk => hG.outside m k (hT k hk)) k hS
  · rw [hF.outside _ k hS]
    by_cases hT : k ∈ T
    · exact hG.inside _ _
        (fun k hk => (hF.outside m k (Set.disjoint_right.mp hdisjoint hk)).symm) k hT
    · rw [hG.outside _ k hT, hG.outside _ k hT, hF.outside m k hS]

end LocalOn

end OrdMap
