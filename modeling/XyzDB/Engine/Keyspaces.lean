import XyzDB.Engine.Buckets
import XyzDB.Talk.Values
import XyzDB.Turba.Types

/-!
# The keys of the shared keyspaces

The dictionary tree holds the anchors of all lobes beside the entries of every internal keyspace,
and the tree of the ghosts holds the entries of all ghosts. What keeps them apart is in their keys:
two bytes for the lobe or the ghost, and behind them fields whose end can be told.

The rollups of a ghost lie under the values that a group has. A row of the ghost shows what is read
back from the key. Its entries lie under a value and a tie-break, in the order of these.
-/

namespace XyzDB.Engine

open List ByteRange
open Std (ExtTreeMap)
open Nom (isAsciiDigit)
open Talk (Digits Sign Value digitsValue parseI64 parseI64_append parseSigned)

/-- `reserved_keys.rs`: the two bytes that pins, rollups, metric orders, gravities, vector fields,
satellites, field names, the boot epoch, ghosts and their counters have in front of their keys. -/
def reservedPrefixes : List Key :=
  [0xF8, 0xF9, 0xF6, 0xFA, 0xF7, 0xF5, 0xFB, 0xFC, 0xFD, 0xFE].map ([0xFF, ·])

/-- The registry after some calls of `get_or_create`. -/
def lobesOf (names : List Text) : LobeRegistry :=
  names.foldl (fun r name => (r.getOrCreate name).2) .empty

/-- How many lobes were created before the one of the name. -/
def createdBefore (names : List Text) (name : Text) : ℕ := names.eraseDups.idxOf name

/-- **Numbers of lobes** are given out in the order of creation, and wrap around. -/
lemma get_lobesOf (names : List Text) :
    (lobesOf names).nextId = UInt16.ofNat names.eraseDups.length ∧
      ∀ n, (lobesOf names).get n =
        if n ∈ names then some (UInt16.ofNat (createdBefore names n)) else none := by
  induction names using reverseRecOn with
  | nil => exact ⟨rfl, fun n => by simp [lobesOf, LobeRegistry.get, LobeRegistry.empty]⟩
  | append_singleton names name ih =>
    obtain ⟨hnext, hget⟩ := ih
    have hstep : lobesOf (names ++ [name]) = ((lobesOf names).getOrCreate name).2 := foldl_concat ..
    have hname : (lobesOf names).byName[name]? = _ := hget name
    rw [hstep, LobeRegistry.getOrCreate, hname]
    by_cases hmem : name ∈ names
    · -- the name has its number already
      have hdups : (names ++ [name]).eraseDups = names.eraseDups := by
        simp [eraseDups_append, removeAll, hmem]
      rw [if_pos hmem]
      refine ⟨by rw [hnext, hdups], fun n => ?_⟩
      simp only [hget, createdBefore, hdups, mem_append, mem_singleton]
      by_cases hn : n = name
      · simp [hn, hmem]
      · simp [hn]
    · have hone : [name].eraseDups = [name] := by simp [eraseDups_cons]
      have hdups : (names ++ [name]).eraseDups = names.eraseDups ++ [name] := by
        simp [eraseDups_append, removeAll, hmem, hone]
      rw [if_neg hmem]
      refine ⟨by simp [hnext, hdups, UInt16.ofNat_add], fun n => ?_⟩
      rw [LobeRegistry.get_insert]
      by_cases hn : name = n
      · subst hn
        simp [createdBefore, hdups, idxOf_append, hmem, hnext]
      · rw [if_neg hn, hget]
        by_cases hn' : n ∈ names
        · simp [createdBefore, hdups, idxOf_append, hn']
        · simp [hn', Ne.symm hn]

/-- The name of the field is cut at 255 bytes. -/
lemma dictionaryKey_eq (lobe : UInt16) (f v : Text) : dictionaryKey lobe f v =
    beBytes lobe ++ UInt8.ofNat ((utf8 f).take 255).length :: ((utf8 f).take 255 ++ utf8 v) := by
  have hcut : (utf8 f).take (min (utf8 f).length 255) = (utf8 f).take 255 :=
    take_eq_take_iff.mpr (by omega)
  rw [dictionaryKey, hcut, length_take, min_comm]

lemma dictionaryKey_eq_iff {lobe lobe' : UInt16} {f f' v v' : Text} :
    dictionaryKey lobe f v = dictionaryKey lobe' f' v' ↔
      lobe = lobe' ∧ (utf8 f).take 255 = (utf8 f').take 255 ∧ v = v' := by
  rw [dictionaryKey_eq, dictionaryKey_eq]
  refine ⟨fun h => ?_, fun ⟨hlobe, hfield, hvalue⟩ => by rw [hlobe, hfield, hvalue]⟩
  obtain ⟨hlobe, hrest⟩ := append_inj h rfl
  obtain ⟨hlen, hbytes⟩ := cons.inj hrest
  have hlen' : ((utf8 f).take 255).length = ((utf8 f').take 255).length := by
    have hnat := congrArg UInt8.toNat hlen
    rwa [UInt8.toNat_ofNat_of_lt' (by grind), UInt8.toNat_ofNat_of_lt' (by grind)] at hnat
  obtain ⟨hfield, hvalue⟩ := append_inj hbytes hlen'
  exact ⟨beBytes_inj hlobe, hfield, utf8_inj hvalue⟩

/-- The keys of a lobe are in a reserved keyspace iff its number is one of theirs. -/
lemma reserved_iff {lobe : UInt16} {f v : Text} :
    (∀ pre ∈ reservedPrefixes, ¬ pre <+: dictionaryKey lobe f v) ↔
      ¬ (0xFFF5 ≤ lobe.toNat ∧ lobe.toNat ≤ 0xFFFE) := by
  have hnumber : ∀ pre ∈ reservedPrefixes, pre = beBytes (keyLobe pre) := by decide
  have hprefix : ∀ pre ∈ reservedPrefixes,
      (pre <+: dictionaryKey lobe f v ↔ keyLobe pre = lobe) := by
    intro pre hpre
    rw [dictionaryKey]
    refine ⟨?_, fun h => ?_⟩
    · rintro ⟨rest, hrest⟩
      have hlobe := congrArg keyLobe hrest
      rw [keyLobe_beBytes_append, hnumber pre hpre, keyLobe_beBytes_append] at hlobe
      exact hlobe
    · rw [hnumber pre hpre, h]
      exact prefix_append _ _
  have hmem : (∃ pre ∈ reservedPrefixes, keyLobe pre = lobe) ↔
      lobe ∈ ([0xFFF8, 0xFFF9, 0xFFF6, 0xFFFA, 0xFFF7, 0xFFF5, 0xFFFB, 0xFFFC, 0xFFFD, 0xFFFE] :
        List UInt16) := by
    rw [← mem_map]
    rfl
  calc (∀ pre ∈ reservedPrefixes, ¬ pre <+: dictionaryKey lobe f v)
      ↔ ¬ ∃ pre ∈ reservedPrefixes, keyLobe pre = lobe := by
        push Not
        exact forall₂_congr fun pre hpre => not_congr ( hprefix pre hpre)
    _ ↔ ¬ (0xFFF5 ≤ lobe.toNat ∧ lobe.toNat ≤ 0xFFFE) := by
        rw [hmem]
        simp only [mem_cons, not_mem_nil, or_false, ← UInt16.toNat_inj, UInt16.reduceToNat]
        omega

/-- **Anchors keep apart**, from each other and from every reserved keyspace, exactly if the
numbers of their lobes, as they were given out, and the first 255 bytes of their fields tell them
apart, and the number of the lobe is no reserved one. -/
theorem anchor_keys_separate {names : List Text} {n n' : Text} {lobe lobe' : UInt16}
    (hn : (lobesOf names).get n = some lobe) (hn' : (lobesOf names).get n' = some lobe')
    (f f' v v' : Text) :
    ((dictionaryKey lobe f v = dictionaryKey lobe' f' v' → n = n' ∧ f = f' ∧ v = v') ∧
        ∀ pre ∈ reservedPrefixes, ¬ pre <+: dictionaryKey lobe f v) ↔
      (createdBefore names n % 2 ^ 16 = createdBefore names n' % 2 ^ 16 →
        (utf8 f).take 255 = (utf8 f').take 255 → v = v' → n = n' ∧ f = f') ∧
      ¬ (0xFFF5 ≤ createdBefore names n % 2 ^ 16 ∧ createdBefore names n % 2 ^ 16 ≤ 0xFFFE) := by
  have hid : ∀ {n lobe}, (lobesOf names).get n = some lobe →
      lobe.toNat = createdBefore names n % 2 ^ 16 := by
    intro n lobe h
    rw [(get_lobesOf names).2] at h
    split at h <;> cases h
    exact UInt16.toNat_ofNat'
  rw [dictionaryKey_eq_iff, reserved_iff, ← UInt16.toNat_inj, hid hn, hid hn']
  refine and_congr_left' ⟨fun h hids hfields hvalues => ?_, fun h hkeys => ?_⟩
  · obtain ⟨h1, h2, -⟩ := h ⟨hids, hfields, hvalues⟩
    exact ⟨h1, h2⟩
  · obtain ⟨h1, h2⟩ := h hkeys.1 hkeys.2.1 hkeys.2.2
    exact ⟨h1, h2, hkeys.2.2⟩

theorem anchor_keys_separate_two :
    (dictionaryKey 0 ['f'] ['v'] = dictionaryKey 1 ['f'] ['v'] →
        ['a'] = ['b'] ∧ ['f'] = ['f'] ∧ ['v'] = ['v']) ∧
      ∀ pre ∈ reservedPrefixes, ¬ pre <+: dictionaryKey 0 ['f'] ['v'] := by
  have ha : (lobesOf [['a'], ['b']]).get ['a'] = some 0 := rfl
  have hb : (lobesOf [['a'], ['b']]).get ['b'] = some 1 := rfl
  exact (anchor_keys_separate ha hb ['f'] ['f'] ['v'] ['v']).mpr (by decide)

/-- Two fields whose names differ behind the first 255 bytes share their keys, and the keys of the
lobe `0xFFF8` are among the pins. -/
theorem dictionary_keys_collide : dictionaryKey 0 (replicate 255 'a' ++ ['b']) [] =
        dictionaryKey 0 (replicate 255 'a' ++ ['c']) [] ∧
      [0xFF, 0xF8] ∈ reservedPrefixes ∧ [0xFF, 0xF8] <+: dictionaryKey 0xFFF8 ['f'] ['v'] :=
  ⟨by decide +kernel, by decide, by decide⟩

/-- The loop of `decode_group_key`. A cut inside a character is a panic; a length of 64 bits or more
is past the end as any other. -/
def decodeGroupKeyLoop : ℕ → Text → Option (List Text)
  | 0, _ => some []
  | fuel + 1, key =>
    match key.takeWhile isAsciiDigit, key.dropWhile isAsciiDigit with
    | d :: digits, ':' :: rest =>
      let len := digitsValue (d :: digits)
      if (utf8 rest).length < len then some []
      else do
        let frag ← fromUtf8 ((utf8 rest).take len)
        let rest ← fromUtf8 ((utf8 rest).drop len)
        let frags ← decodeGroupKeyLoop fuel rest
        return frag :: frags
    | _, _ => some []

def decodeGroupKey (key : Text) : Option (List Text) := decodeGroupKeyLoop key.length key

def groupKeyFragmentToValue (parseF64 : Text → Option UInt64) : Text → Value
  | 'n' :: _ => .null
  | 's' :: s => .text s
  | 'i' :: s => (parseSigned s).elim .null .int
  | 'f' :: s => (parseF64 s).elim .null .float
  | frag => .text frag

lemma digits_toDigits (n : ℕ) :
    Digits (Nat.toDigits 10 n) ∧ digitsValue (Nat.toDigits 10 n) = n := by
  refine ⟨⟨Nat.toDigits_ne_nil, fun c hc => ?_⟩, Nat.ofDigitChars_toDigits (by decide) (by decide)⟩
  exact Nat.isDigit_of_mem_toDigits (by decide) le_rfl hc

lemma decodeGroupKeyLoop_encode {frags : List Text} {fuel : ℕ} (h : frags.length ≤ fuel) :
    decodeGroupKeyLoop fuel (encodeGroupKey frags) = some frags := by
  induction frags generalizing fuel with
  | nil => cases fuel <;> rfl
  | cons frag frags ih =>
    obtain _ | fuel := fuel
    · cases h
    obtain ⟨⟨hne, hall⟩, hvalue⟩ := digits_toDigits (utf8 frag).length
    have hkey : encodeGroupKey (frag :: frags) =
        Nat.toDigits 10 (utf8 frag).length ++ ':' :: (frag ++ encodeGroupKey frags) := by
      simp [encodeGroupKey]
    have hbytes : utf8 (frag ++ encodeGroupKey frags) = utf8 frag ++ utf8 (encodeGroupKey frags) :=
      flatMap_append
    obtain ⟨d, digits, hdigits⟩ := exists_cons_of_ne_nil hne
    rw [hkey, decodeGroupKeyLoop, takeWhile_append_of_pos hall, dropWhile_append_of_pos hall,
      takeWhile_cons_of_neg (by decide), dropWhile_cons_of_neg (by decide), append_nil, hdigits]
    rw [hdigits] at hvalue
    simp only [hvalue, hbytes, take_left, drop_left, fromUtf8_utf8, length_append,
      Nat.not_lt.mpr (Nat.le_add_right _ _), Option.bind_eq_bind,
      Option.bind_some, ih (Nat.le_of_succ_le_succ h)]
    rfl

lemma decodeGroupKey_encode (frags : List Text) :
    decodeGroupKey (encodeGroupKey frags) = some frags := by
  refine decodeGroupKeyLoop_encode ?_
  induction frags with
  | nil => rfl
  | cons frag frags ih =>
    simp only [encodeGroupKey, flatMap_cons, length_append, length_cons] at ih ⊢
    omega

lemma parseSigned_append {sign d : Text} (hsign : Sign sign) (hd : Digits d) :
    parseSigned (sign ++ d) = parseI64 (sign ++ d) := by
  obtain ⟨hne, hall⟩ := hd
  have hd := all_eq_true.mpr hall
  rcases hsign with rfl | rfl
  · obtain ⟨c, d, rfl⟩ := exists_cons_of_ne_nil hne
    have hminus : c ≠ '-' := by rintro rfl; cases hall '-' mem_cons_self
    have hplus : c ≠ '+' := by rintro rfl; cases hall '+' mem_cons_self
    simp [parseSigned, hminus, hplus, hd]
  · simp [parseSigned, hne, hd]

lemma parseSigned_displayInt {i : ℤ} (hlow : -2 ^ 63 ≤ i) (hhigh : i < 2 ^ 63) :
    parseSigned (displayInt i) = some i := by
  -- the sign, and the digits of the absolute value
  have hsigned : ∀ (sign : Text) {n : ℕ}, Sign sign → i = (if sign = [] then (n : ℤ) else -n) →
      parseSigned (sign ++ n.repr.toList) = some i := by
    intro sign n hsign hi
    obtain ⟨hd, hvalue⟩ := digits_toDigits n
    rw [Nat.repr_eq_ofList_toDigits, String.toList_ofList, parseSigned_append hsign hd]
    exact parseI64_append hsign hd (by rwa [hvalue]) hlow hhigh
  rw [displayInt, Int.toString_eq_repr, Int.repr_eq_if]
  split
  · next hi => exact hsigned [] (.inl rfl) (Int.toNat_of_nonneg hi).symm
  · next hi =>
    rw [String.toList_append]
    exact hsigned ['-'] (.inr rfl) (by rw [if_neg (cons_ne_nil _ _)]; omega)

/-- The group values that a row shows as they were. -/
inductive Shown : Value → Prop
  | text (s : Text) : Shown (.text s)
  | null : Shown .null
  | int {i : ℤ} (hlow : -2 ^ 63 ≤ i) (hhigh : i < 2 ^ 63) : Shown (.int i)

variable (p : Platform) (parseF64 : Text → Option UInt64)

lemma map_fragment {vs : List Value} (h : ∀ v ∈ vs, Shown v) :
    vs.map (groupKeyFragmentToValue parseF64 ∘ valueToGroupKeyFragment p ∘ some) = vs := by
  refine (map_congr_left fun v hv => ?_).trans (map_id' vs)
  cases h v hv with
  | text | null => rfl
  | int hlow hhigh =>
    exact congrArg (Option.elim · Value.null .int) (parseSigned_displayInt hlow hhigh)

/-- The values that a group may have: texts, integers, booleans, timestamps, Null, and none. -/
inductive Groupable : Option Value → Prop
  | shown {v : Value} (h : Shown v) : Groupable (some v)
  | absent : Groupable none
  | bool (b : Bool) : Groupable (some (.bool b))
  | timestamp {t : ℤ} (hlow : -2 ^ 63 ≤ t) (hhigh : t < 2 ^ 63) : Groupable (some (.timestamp t))

/-- The debug print tells booleans and timestamps apart. -/
def DebugTells : Prop :=
  ∀ v w : Value, Groupable (some v) → Groupable (some w) → ¬ Shown v → ¬ Shown w →
    p.debugValue v = p.debugValue w → v = w

variable {p}

/-- A value comes back from its fragment iff it is a text, an integer or Null. -/
lemma fragment_round_trip {v : Option Value} (h : Groupable v) :
    some (groupKeyFragmentToValue parseF64 (valueToGroupKeyFragment p v)) = v ↔
      ∃ x, v = some x ∧ Shown x := by
  cases h with
  | @shown x hx =>
    have hback := @map_fragment p parseF64 [x] (by simpa using hx)
    exact iff_of_true (congrArg some (cons.inj hback).1) ⟨x, rfl, hx⟩
  | absent => exact iff_of_false nofun nofun
  | bool | timestamp =>
    refine iff_of_false nofun ?_
    rintro ⟨x, hx, hshown⟩
    cases hx
    cases hshown

/-- Two values that are there have fragments of their own. -/
lemma fragment_inj (hdebug : DebugTells p) {v w : Value} (hv : Groupable (some v))
    (hw : Groupable (some w))
    (h : valueToGroupKeyFragment p (some v) = valueToGroupKeyFragment p (some w)) : v = w := by
  by_cases hshown : Shown v
  · by_cases hshown' : Shown w
    · -- both come back
      have hback := (fragment_round_trip (p := p) (fun _ => none) hv).mpr ⟨v, rfl, hshown⟩
      have hback' := (fragment_round_trip (p := p) (fun _ => none) hw).mpr ⟨w, rfl, hshown'⟩
      rw [h, hback'] at hback
      exact (Option.some_inj.mp hback).symm
    · -- the letters of the types differ
      cases hw with
      | shown hw => exact absurd hw hshown'
      | bool | timestamp => cases hshown <;> cases h
  · have hdebugged : ∀ {x : Value}, Groupable (some x) → ¬ Shown x →
        valueToGroupKeyFragment p (some x) = '?' :: p.debugValue x := by
      rintro _ (hx | _ | _ | _) hno
      · exact absurd hx hno
      · rfl
      · rfl
    by_cases hshown' : Shown w
    · rw [hdebugged hv hshown] at h
      cases hshown' <;> cases h
    · rw [hdebugged hv hshown, hdebugged hw hshown'] at h
      exact hdebug v w hv hw hshown hshown' (cons.inj h).2

/-- Two values have one fragment iff they are the same, or Null and none. -/
lemma fragment_eq_iff (hdebug : DebugTells p) {v w : Option Value} (hv : Groupable v)
    (hw : Groupable w) : valueToGroupKeyFragment p v = valueToGroupKeyFragment p w ↔
      v.getD .null = w.getD .null := by
  have hnone : ∀ v, valueToGroupKeyFragment p v =
    valueToGroupKeyFragment p (some (v.getD .null)) := by
    rintro (_ | v) <;> rfl
  have hpresent : ∀ {v : Option Value}, Groupable v → Groupable (some (v.getD .null)) := by
    rintro (_ | v) h
    · exact .shown .null
    · exact h
  rw [hnone v, hnone w]
  exact ⟨fragment_inj hdebug (hpresent hv) (hpresent hw), fun h => by rw [h]⟩

/-- Two functions that agree on what they identify give equal lists at once. -/
lemma map_eq_map_iff {α β γ : Type} {f : α → β} {g : α → γ} {l l' : List α}
    (h : ∀ a ∈ l, ∀ b ∈ l', f a = f b ↔ g a = g b) : l.map f = l'.map f ↔ l.map g = l'.map g := by
  induction l generalizing l' with
  | nil => cases l' <;> simp
  | cons a l ih =>
    cases l' with
    | nil => simp
    | cons b l' =>
      rw [map_cons, map_cons, map_cons, map_cons, cons.injEq, cons.injEq,
        h a mem_cons_self b mem_cons_self,
        ih fun c hc d hd => h c (.tail _ hc) d (.tail _ hd)]

/-- **Group keys are read back.** Fragments always are. The values of a tuple are shown as they were
iff they are texts, integers and Null, and a tuple has a key of its own iff it is not told from
another by Null against a missing value alone. -/
theorem group_keys_round_trip (hdebug : DebugTells p) (frags : List Text)
    {vs ws : List (Option Value)} (hvs : ∀ v ∈ vs, Groupable v) (hws : ∀ v ∈ ws, Groupable v) :
    decodeGroupKey (encodeGroupKey frags) = some frags ∧
      (vs.map (some ∘ groupKeyFragmentToValue parseF64 ∘ valueToGroupKeyFragment p) = vs ↔
        ∀ v ∈ vs, ∃ x, v = some x ∧ Shown x) ∧
      ((encodeGroupKey (vs.map (valueToGroupKeyFragment p)) =
          encodeGroupKey (ws.map (valueToGroupKeyFragment p)) → vs = ws) ↔
        (vs.map (·.getD .null) = ws.map (·.getD .null) → vs = ws)) := by
  refine ⟨decodeGroupKey_encode frags, ?_, imp_congr_left ?_⟩
  · have hmap := @map_inj_left _ _ vs
      (some ∘ groupKeyFragmentToValue parseF64 ∘ valueToGroupKeyFragment p) id
    rw [List.map_id] at hmap
    exact hmap.trans (forall₂_congr fun v hv => fragment_round_trip parseF64 (hvs v hv))
  · have hkey : encodeGroupKey (vs.map (valueToGroupKeyFragment p)) =
        encodeGroupKey (ws.map (valueToGroupKeyFragment p)) ↔
          vs.map (valueToGroupKeyFragment p) = ws.map (valueToGroupKeyFragment p) := by
      refine ⟨fun h => ?_, fun h => by rw [h]⟩
      have hfrags := congrArg decodeGroupKey h
      rwa [decodeGroupKey_encode, decodeGroupKey_encode, Option.some_inj] at hfrags
    exact hkey.trans (map_eq_map_iff fun v hv w hw => fragment_eq_iff hdebug (hvs v hv) (hws w hw))

/-- A platform with the derived debug print of booleans and timestamps. -/
def Platform.debugging : Platform :=
  { Platform.sample with
    debugValue := fun
      | .bool b => "Bool(".toList ++ (toString b).toList ++ [')']
      | .timestamp t => "Timestamp(".toList ++ displayInt t ++ [')']
      | _ => [] }

lemma debugTells_debugging : DebugTells Platform.debugging := by
  intro v w hv hw hno hno' h
  cases hv with
  | shown hv => exact absurd hv hno
  | bool b =>
    cases hw with
    | shown hw => exact absurd hw hno'
    | bool b' => cases b <;> cases b' <;> first | rfl | exact absurd h (by decide)
    | timestamp => exact absurd (cons.inj h).1 (by decide)
  | @timestamp t hlow hhigh =>
    cases hw with
    | shown hw => exact absurd hw hno'
    | bool => exact absurd (cons.inj h).1 (by decide)
    | @timestamp t' hlow' hhigh' =>
      have hprint : displayInt t = displayInt t' :=
        append_cancel_left (append_cancel_right h)
      have hparse := congrArg parseSigned hprint
      rw [parseSigned_displayInt hlow hhigh, parseSigned_displayInt hlow' hhigh'] at hparse
      rw [Option.some_inj.mp hparse]

theorem group_keys_round_trip_int :
    groupKeyFragmentToValue (fun _ => none)
      (valueToGroupKeyFragment .debugging (some (.int (-5)))) =
      .int (-5) := by
  have hshown : Shown (.int (-5)) := .int (by decide) (by decide)
  have hgroup : ∀ v ∈ [some (Value.int (-5))], Groupable v := by simpa using .shown hshown
  have hback :=
    (group_keys_round_trip (fun _ => none) debugTells_debugging [] hgroup hgroup).2.1.mpr
    (by simpa using hshown)
  exact Option.some_inj.mp (cons.inj hback).1

/-- A boolean comes back as a text, however it was printed, and a record without the field has the
key of one with Null in it. -/
theorem group_values_lost : (¬ ∃ p parseF64, groupKeyFragmentToValue parseF64
      (valueToGroupKeyFragment p (some (.bool true))) = .bool true) ∧
    extractGroupKey .sample ∅ [['f']] =
      extractGroupKey .sample (.ofList [(['f'], Value.null)]) [['f']] :=
  ⟨nofun, by decide +kernel⟩

/-- The order of the values: Null, the integers, and the texts by their bytes. -/
def sortOrder : Value → ℕ ×ₗ ℤ ×ₗ List UInt8
  | .int i => toLex (1, toLex (i, []))
  | .text s => toLex (2, toLex (0, utf8 s))
  | _ => toLex (0, toLex (0, []))

lemma diverges_toBE {w m n : ℕ} (h : m < n) (hn : n < 256 ^ w) :
    Diverges (toBE w m) (toBE w n) := by
  induction w generalizing m n with
  | zero =>
    omega
  | succ w ih =>
    have hsucc (k : ℕ) : toBE (w + 1) k = toBE w (k / 256) ++ [UInt8.ofNat k] := by
      simp [toBE, Codec.toLE]
    rw [hsucc, hsucc]
    rcases (Nat.div_le_div_right h.le : m / 256 ≤ n / 256).lt_or_eq with hlt | heq
    · exact (ih hlt (by omega)).append _ _
    · rw [heq]
      refine .append_left (.here ?_ _ _) _
      rw [UInt8.lt_iff_toNat_lt, UInt8.toNat_ofNat', UInt8.toNat_ofNat']
      omega

lemma diverges_escapeText : ∀ {a b : List UInt8}, a < b → Diverges (escapeText a) (escapeText b)
  | [], y :: b, _ => by
    rw [escapeText, escapeText, flatMap_cons]
    split
    · exact .cons 0 (.here (by decide) _ _)
    · next hy => exact .here (UInt8.pos_iff_ne_zero.mpr hy) _ _
  | x :: a, y :: b, h => by
    have ih : a < b → Diverges (escapeText a) (escapeText b) := diverges_escapeText
    simp only [escapeText, flatMap_cons, append_assoc] at ih ⊢
    rcases cons_lt_cons_iff.mp h with hlt | ⟨rfl, hlt⟩
    · have hy : y ≠ 0 := by rintro rfl; exact absurd hlt (by simp)
      rw [if_neg hy]
      split
      · next hx => exact .here (hx ▸ hlt) _ _
      · exact .here hlt _ _
    · exact (ih hlt).append_left _

section

variable {v w : Value} (hv : Shown v) (hw : Shown w)

include hv hw

lemma diverges_encode (h : sortOrder v < sortOrder w) :
    Diverges (encodeValueOrdered (some v)) (encodeValueOrdered (some w)) := by
  cases hv <;> cases hw
  case int.int i hi hi' j hj hj' =>
    have hij : i < j := by simpa [sortOrder, Prod.Lex.toLex_lt_toLex] using h
    exact .cons 1 (diverges_toBE (by omega) (by omega))
  case text.text s t =>
    have hst : utf8 s < utf8 t := by simpa [sortOrder, Prod.Lex.toLex_lt_toLex] using h
    exact .cons 3 (diverges_escapeText hst)
  -- the types tell the others apart
  case null.int | null.text | int.text => exact .here (by decide) _ _
  all_goals simp [sortOrder, Prod.Lex.toLex_lt_toLex] at h

lemma sortOrder_inj (h : sortOrder v = sortOrder w) : v = w := by
  cases hv <;> cases hw
  case text.text =>
    simp only [sortOrder, toLex_inj, Prod.mk.injEq, true_and] at h
    rw [utf8_inj h]
  all_goals
    cases h
    try rfl

variable {t u : List UInt8} {inverted : Bool} (id : UInt16)

lemma encodeSortKey_lt (hdesc : inverted = true → v = w → t <+: u → t = u)
    (h : toLex (sortOrder v, t) < toLex (sortOrder w, u)) :
    if inverted then encodeSortKey id (some w) inverted u < encodeSortKey id (some v) inverted t
    else encodeSortKey id (some v) inverted t < encodeSortKey id (some w) inverted u := by
  rcases Prod.Lex.toLex_lt_toLex.mp h with hlt | ⟨heq, htu⟩
  · have hd := (diverges_encode hv hw hlt).append t u
    cases inverted
    · exact (hd.append_left _).lt
    · exact (hd.map_not.append_left _).lt
  · obtain rfl := sortOrder_inj hv hw heq
    cases inverted
    · exact append_left_lt (append_left_lt htu)
    · rcases Diverges.of_lt htu with hp | hd
      · exact absurd (hdesc rfl rfl hp) htu.ne
      · exact ((hd.append_left _).map_not.append_left _).lt

end

/-- Where an entry belongs: by its value, and then by its tie-break. -/
def sortPlace (sortValue : Option Value) (tiebreak : List UInt8) :=
  toLex (sortOrder (sortValue.getD .null), tiebreak)

section

variable {v w : Option Value} {t u : List UInt8} {inverted : Bool}

/-- An absent value has the key of Null. -/
lemma encodeSortKey_getD (id : UInt16) (v : Option Value) (inverted : Bool) (t : List UInt8) :
    encodeSortKey id v inverted t = encodeSortKey id (some (v.getD .null)) inverted t := by
  rcases v with _ | v <;> rfl

/-- Under DESC a tie-break that goes on comes later, although its place is greater. -/
lemma encodeSortKey_desc_of_prefix (id : UInt16) (hvw : v.getD .null = w.getD .null) (htu : t <+: u)
    (hne : t ≠ u) : encodeSortKey id v true t < encodeSortKey id w true u ∧
      sortPlace v t < sortPlace w u := by
  obtain ⟨x, rfl⟩ := htu
  obtain ⟨b, x, rfl⟩ := exists_cons_of_ne_nil fun h : x = [] => hne (by rw [h, append_nil])
  have hlonger : ∀ (l : List UInt8) c m, l < l ++ c :: m := fun l c m => by
    have h : l ++ [] < l ++ c :: m := append_left_lt (nil_lt_cons c m)
    rwa [append_nil] at h
  refine ⟨?_, Prod.Lex.toLex_lt_toLex.mpr (.inr ⟨by rw [hvw], hlonger t b x⟩)⟩
  rw [encodeSortKey_getD, encodeSortKey_getD id w, hvw]
  simp only [encodeSortKey, if_true, map_append, map_cons]
  rw [← append_assoc, ← append_assoc, ← append_assoc]
  exact hlonger _ _ _

/-- **Sort keys are order embeddings**, under DESC with the order turned around, exactly if an
absent value does not meet Null with the same tie-break, and under DESC no tie-break of a value
meets one that goes on. -/
theorem sort_keys_embed (hv : Shown (v.getD .null)) (hw : Shown (w.getD .null)) (id : UInt16) :
    ((encodeSortKey id v inverted t < encodeSortKey id w inverted u ↔
        if inverted then sortPlace w u < sortPlace v t else sortPlace v t < sortPlace w u) ∧
      (encodeSortKey id v inverted t = encodeSortKey id w inverted u → v = w ∧ t = u)) ↔
    (v.getD .null = w.getD .null → t = u → v = w) ∧
      (inverted = true → v.getD .null = w.getD .null → t <+: u ∨ u <+: t → t = u) := by
  constructor
  · rintro ⟨hlt, heq⟩
    refine ⟨fun hvw htu => ?_, fun hdesc hvw hpre => ?_⟩
    · refine (heq ?_).1
      rw [encodeSortKey_getD, encodeSortKey_getD id w, hvw, htu]
    · subst hdesc
      by_contra hne
      rcases hpre with hpre | hpre
      · obtain ⟨hkey, hplace⟩ := encodeSortKey_desc_of_prefix id hvw hpre hne
        exact absurd (hlt.mp hkey) hplace.not_gt
      · obtain ⟨hkey, hplace⟩ := encodeSortKey_desc_of_prefix id hvw.symm hpre (Ne.symm hne)
        exact absurd (hlt.mpr hplace) hkey.not_gt
  · rintro ⟨hnull, hdesc⟩
    have hlt := encodeSortKey_lt hv hw id fun hi hvw htu => hdesc hi hvw (.inl htu)
    have hgt := encodeSortKey_lt hw hv id fun hi hvw hut =>
      (hdesc hi hvw.symm (.inr hut)).symm
    rw [← encodeSortKey_getD, ← encodeSortKey_getD] at hlt hgt
    have heq (h : sortPlace v t = sortPlace w u) : v = w ∧ t = u := by
      obtain ⟨hvw, rfl⟩ := Prod.mk.inj (toLex_inj.mp h)
      exact ⟨hnull (sortOrder_inj hv hw hvw) rfl, rfl⟩
    have hsame (h : sortPlace v t = sortPlace w u) :
        encodeSortKey id v inverted t = encodeSortKey id w inverted u := by
      obtain ⟨rfl, rfl⟩ := heq h
      rfl
    cases inverted
    · exact (lt_iff_of_lt hlt hsame hgt).imp_right (heq ∘ ·)
    · exact (lt_iff_of_lt hgt (hsame ·.symm) hlt).imp_right fun h hxy => heq (h hxy).symm

end

theorem sort_keys_embed_desc :
    encodeSortKey 0 none true [1] < encodeSortKey 0 (some .null) true [0] := by
  have hnull : Shown ((none : Option Value).getD .null) := .null
  have hnull' : Shown ((some Value.null).getD .null) := .null
  exact ((@sort_keys_embed none (some .null) [1] [0] true hnull hnull' 0).mpr
    ⟨fun _ h => absurd h (by decide), fun _ _ h => absurd h (by decide)⟩).1.mpr (by decide)

/-- An absent value has the key of Null, and under DESC the entry with the greater tie-break comes
last. -/
theorem sort_keys_collide : encodeSortKey 0 none false [] = encodeSortKey 0 (some .null) false [] ∧
      sortPlace (some .null) [] < sortPlace (some .null) [0] ∧
      encodeSortKey 0 (some .null) true [] < encodeSortKey 0 (some .null) true [0] := by
  decide

open SpatialKey in
/-- **Ranges are prefixes.** -/
theorem key_ranges_exact :
    (∀ p k : Key, ((prefixToRange p).1 ≤ k ∧ ∀ u, (prefixToRange p).2 = some u → k < u) ↔ p <+: k) ∧
    (∀ (k : SpatialKey) (lobe : UInt16) (hash : BitVec 48),
      ((prefixForGravity lobe hash).1 ≤ k.toBytes ∧ k.toBytes ≤ (prefixForGravity lobe hash).2 ↔
        k.lobeId = lobe ∧ k.gravityHash = hash) ∧
      ∀ sat, (prefixForSatellite lobe hash sat).1 ≤ k.toBytes ∧
          k.toBytes ≤ (prefixForSatellite lobe hash sat).2 ↔
        k.lobeId = lobe ∧ k.gravityHash = hash ∧ k.sat = sat) ∧
    ∀ (lobe : UInt16) (hash : BitVec 48) (sat typeId : UInt16) (time : UInt32) (seq : UInt64),
      let k := newWithSat lobe hash sat typeId time.toNat seq.toNat
      fromBytes k.toBytes = k := by
  have hle : ∀ a b : Key, a ≤ b ↔ @LE.le Key instLE a b := fun a b => not_lt.symm
  refine ⟨fun p k => (isPrefix_iff_mem_range p k).symm, fun k lobe hash => ⟨?_, fun sat => ?_⟩, ?_⟩
  · rw [hle, hle, mem_prefixForGravity (length_toBytes k), keyLobe_toBytes,
      gravityHashFromBytes_toBytes]
  · rw [hle, hle, prefixForSatellite, between_iff_prefix (by simp [spatialKeySize]),
      prefix_iff_eq_take, length_satellitePrefix, toBytes, take_left' (length_satellitePrefix ..),
      satellitePrefix_inj, eq_comm, @eq_comm _ hash, @eq_comm _ sat]
  · intro lobe hash sat typeId time seq
    refine fromBytes_toBytes ?_ seq.toNat_lt
    exact Nat.lt_of_le_of_lt Nat.and_le_right (by decide)

end XyzDB.Engine
