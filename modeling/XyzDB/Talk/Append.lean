import XyzDB.Talk.Parse

/-!
# A text with something behind it

What the passes over a raw text do when the text is longer at its end: stripping comments and
trimming give the same text with something behind it, and cutting at pipes gives the same parts
with something behind the last one, as long as no pipe was added.
-/

namespace XyzDB.Talk

open List

variable {std : CharTable}

variable {a : Text}

lemma trimStart_append (x : Text) (h : trimStart std a ≠ []) :
    trimStart std (a ++ x) = trimStart std a ++ x := by
  have hne : (a.dropWhile std.isWhitespace).isEmpty = false := by simpa [trimStart] using h
  rw [trimStart, dropWhile_append, hne]
  rfl

lemma exists_trimEnd_append (a x : Text) : ∃ y, trimEnd std (a ++ x) = trimEnd std a ++ y ∧
    ∀ c ∈ y, std.isWhitespace c = true ∨ c ∈ x := by
  obtain ⟨w, hw, hwhite⟩ : ∃ w, a = trimEnd std a ++ w ∧ ∀ c ∈ w, std.isWhitespace c = true := by
    refine ⟨(a.reverse.takeWhile std.isWhitespace).reverse, ?_, ?_⟩
    · rw [trimEnd, rdropWhile, ← reverse_append, takeWhile_append_dropWhile, reverse_reverse]
    · intro c hc
      exact mem_takeWhile_imp (mem_reverse.mp hc)
  rw [trimEnd, rdropWhile, reverse_append, dropWhile_append]
  split
  · exact ⟨[], (append_nil _).symm, nofun⟩
  · refine ⟨w ++ (x.reverse.dropWhile std.isWhitespace).reverse, ?_, fun c hc => ?_⟩
    · rw [reverse_append, reverse_reverse, ← append_assoc, ← hw]
    · rcases mem_append.mp hc with hc | hc
      · exact .inl (hwhite c hc)
      · exact .inr (mem_reverse.mp (dropWhile_subset _ (mem_reverse.mp hc)))

lemma trimStart_ne_nil (h : trim std a ≠ []) : trimStart std a ≠ [] := by
  intro ha
  rw [trim, ha] at h
  exact h rfl

lemma trimStart_eq_self (h : ∀ c, a.head? = some c → std.isWhitespace c = false) :
    trimStart std a = a := by
  cases a with
  | nil => rfl
  | cons c a => exact dropWhile_cons_of_neg (by simp [h c rfl])

lemma trim_trim (a : Text) : trim std (trim std a) = trim std a := by
  have hstart : trimStart std (trim std a) = trim std a := by
    apply trimStart_eq_self
    intro c hc
    obtain ⟨w, hw⟩ : trim std a <+: trimStart std a := rdropWhile_prefix _ _
    have hhead : (trimStart std a).head? = some c := by
      rw [← hw, head?_append, hc]
      rfl
    have hnot := head?_dropWhile_not std.isWhitespace a
    rw [← trimStart, hhead] at hnot
    exact hnot
  rw [trim, hstart]
  exact rdropWhile_idempotent _ _

lemma trim_eq_self (h : ∀ c ∈ a, std.isWhitespace c = false) : trim std a = a := by
  rw [trim, trimStart_eq_self fun c hc => h c (mem_of_mem_head? hc), trimEnd,
    rdropWhile_eq_self_iff]
  intro hne
  rw [h _ (getLast_mem hne)]
  nofun

lemma exists_trim_append (x : Text) (h : trim std a ≠ []) :
    ∃ y, trim std (a ++ x) = trim std a ++ y ∧ ∀ c ∈ y, std.isWhitespace c = true ∨ c ∈ x := by
  rw [trim, trimStart_append x (trimStart_ne_nil h)]
  exact exists_trimEnd_append (trimStart std a) x

lemma toUppercase_append (a x : Text) :
    toUppercase std (a ++ x) = toUppercase std a ++ toUppercase std x :=
  flatMap_append

lemma cutComment_subset (t : Text) (inString : Bool) : cutComment inString t ⊆ t := by
  induction t generalizing inString with
  | nil => exact nil_subset _
  | cons c t ih =>
    rw [cutComment]
    split
    · exact cons_subset_cons _ (ih _)
    · split
      · exact nil_subset _
      · exact cons_subset_cons _ (ih _)

/-- A space behind a line starts no comment with what is before it. -/
lemma exists_cutComment_append (a x : Text) (inString : Bool) : ∃ y,
    cutComment inString (a ++ ' ' :: x) = cutComment inString a ++ y ∧ y ⊆ ' ' :: x := by
  induction a generalizing inString with
  | nil => exact ⟨_, rfl, cutComment_subset (' ' :: x) inString⟩
  | cons c a ih =>
    have hhead : ((a ++ ' ' :: x).head? = some '-') = (a.head? = some '-') := by cases a <;> simp
    rw [cons_append, cutComment, cutComment]
    simp only [hhead]
    split
    · obtain ⟨y, hy, hsub⟩ := ih (!inString)
      exact ⟨y, by rw [hy, cons_append], hsub⟩
    · split
      · exact ⟨[], rfl, nil_subset _⟩
      · obtain ⟨y, hy, hsub⟩ := ih inString
        exact ⟨y, by rw [hy, cons_append], hsub⟩

section

variable (cur : Text)

/-- `stripComments` in the middle of a line, of which `cur` is the front in reverse. -/
def stripFrom (input : Text) : Text :=
  [' '].intercalate ((lines cur input).map (cutComment false))

/-- What `lines` makes of a line that ends in a newline. -/
def finishLine : Text := (if cur.head? = some '\r' then cur.tail else cur).reverse

/-- The lines behind the first one, with the space that joins them to it. -/
def stripRest (input : Text) : Text := if lines [] input = [] then [] else ' ' :: stripFrom [] input

lemma stripFrom_newline (t : Text) :
    stripFrom cur ('\n' :: t) = cutComment false (finishLine cur) ++ stripRest t := by
  rw [stripFrom, lines, stripRest, ← finishLine]
  cases h : lines [] t with
  | nil => simp [intercalate]
  | cons l ls => simp [stripFrom, h]

lemma stripFrom_cons {cur t : Text} {c : Char} (h : c ≠ '\n') :
    stripFrom cur (c :: t) = stripFrom (c :: cur) t := by
  rw [stripFrom, lines, if_neg h, stripFrom]

lemma lines_ne_nil {cur : Text} (input : Text) (h : cur ≠ []) : lines cur input ≠ [] := by
  induction input generalizing cur with
  | nil => simp [lines, h]
  | cons c input ih =>
    rw [lines]
    split
    · exact cons_ne_nil _ _
    · exact ih (cons_ne_nil _ _)

lemma stripFrom_nil : stripFrom cur [] = cutComment false cur.reverse := by
  by_cases h : cur = []
  · rw [h]
    rfl
  · simp [stripFrom, lines, h]

lemma finishLine_subset : finishLine cur ⊆ cur := by
  intro c hc
  rw [finishLine, mem_reverse] at hc
  split at hc
  · exact mem_of_mem_tail hc
  · exact hc

lemma stripFrom_subset (t : Text) : stripFrom cur t ⊆ ' ' :: (cur ++ t) := by
  induction t generalizing cur with
  | nil =>
    rw [stripFrom_nil, append_nil]
    intro c hc
    exact .tail _ (mem_reverse.mp (cutComment_subset _ _ hc))
  | cons c t ih =>
    by_cases hc : c = '\n'
    · subst hc
      rw [stripFrom_newline, stripRest]
      intro d hd
      rcases mem_append.mp hd with hd | hd
      · have := finishLine_subset cur (cutComment_subset _ _ hd)
        simp [this]
      · split at hd
        · cases hd
        · have := ih []
          rcases mem_cons.mp hd with rfl | hd
          · exact mem_cons_self
          · have := this hd
            simp only [mem_cons, mem_append] at this ⊢
            tauto
    · rw [stripFrom_cons hc]
      intro d hd
      have := ih (c :: cur) hd
      simp only [mem_cons, mem_append] at this ⊢
      tauto

lemma stripRest_subset (t : Text) : stripRest t ⊆ ' ' :: t := by
  intro c hc
  rw [stripRest] at hc
  split at hc
  · cases hc
  · rcases mem_cons.mp hc with rfl | hc
    · exact mem_cons_self
    · exact stripFrom_subset [] t hc

/-- From the space on, nothing changes what is before it: `r` is what has been read since. -/
lemma exists_stripFrom_space (r t : Text) : ∃ y,
    stripFrom (r ++ ' ' :: cur) t = cutComment false cur.reverse ++ y ∧ y ⊆ ' ' :: (r ++ t) := by
  induction t generalizing r with
  | nil =>
    obtain ⟨y, hy, hsub⟩ := exists_cutComment_append cur.reverse r.reverse false
    refine ⟨y, ?_, fun c hc => ?_⟩
    · rw [stripFrom_nil, ← hy]
      simp
    · have := hsub hc
      simpa using this
  | cons c t ih =>
    by_cases hc : c = '\n'
    · subst hc
      obtain ⟨q, hq, hqsub⟩ : ∃ q, finishLine (r ++ ' ' :: cur) = cur.reverse ++ ' ' :: q ∧
          q ⊆ r := by
        -- a carriage return is dropped behind the space or not at all
        cases r with
        | nil => exact ⟨[], by simp [finishLine], nil_subset _⟩
        | cons d r =>
          rw [finishLine]
          split
          · exact ⟨r.reverse, by simp, fun c hc => by simp [mem_reverse.mp hc]⟩
          · exact ⟨(d :: r).reverse, by simp, fun c hc => mem_reverse.mp hc⟩
      obtain ⟨y, hy, hsub⟩ := exists_cutComment_append cur.reverse q false
      refine ⟨y ++ stripRest t, ?_, fun c hc => ?_⟩
      · rw [stripFrom_newline, hq, hy, append_assoc]
      · rcases mem_append.mp hc with hc | hc
        · rcases mem_cons.mp (hsub hc) with rfl | hc
          · exact mem_cons_self
          · simp [hqsub hc]
        · have := stripRest_subset t hc
          simp only [mem_cons, mem_append] at this ⊢
          tauto
    · obtain ⟨y, hy, hsub⟩ := ih (c :: r)
      refine ⟨y, ?_, fun d hd => ?_⟩
      · rw [stripFrom_cons hc, ← hy]
        rfl
      · have := hsub hd
        simp only [mem_cons, mem_append] at this ⊢
        tauto

lemma exists_stripFrom_append (s t : Text) : ∃ y,
    stripFrom cur (s ++ ' ' :: t) = stripFrom cur s ++ y ∧ y ⊆ ' ' :: t := by
  induction s generalizing cur with
  | nil =>
    obtain ⟨y, hy, hsub⟩ := exists_stripFrom_space cur [] t
    refine ⟨y, ?_, hsub⟩
    rw [stripFrom_nil]
    exact hy
  | cons c s ih =>
    by_cases hc : c = '\n'
    · subst hc
      suffices h : ∃ y, stripRest (s ++ ' ' :: t) = stripRest s ++ y ∧ y ⊆ ' ' :: t by
        obtain ⟨y, hy, hsub⟩ := h
        exact ⟨y, by rw [cons_append, stripFrom_newline, stripFrom_newline, hy, append_assoc], hsub⟩
      obtain ⟨y, hy, hsub⟩ := ih []
      by_cases hs : lines [] s = []
      · refine ⟨stripRest (s ++ ' ' :: t), by rw [stripRest, stripRest, if_pos hs]; rfl, ?_⟩
        have hnil : stripFrom [] s = [] := by rw [stripFrom, hs]; rfl
        rw [hnil] at hy
        rw [stripRest, hy]
        split
        · exact nil_subset _
        · exact cons_subset.mpr ⟨mem_cons_self, hsub⟩
      · have hs' : lines [] (s ++ ' ' :: t) ≠ [] := by
          cases s with
          | nil => exact absurd rfl hs
          | cons d s =>
            rw [cons_append, lines]
            split
            · exact cons_ne_nil _ _
            · exact lines_ne_nil _ (cons_ne_nil _ _)
        exact ⟨y, by rw [stripRest, stripRest, if_neg hs, if_neg hs', hy]; rfl, hsub⟩
    · rw [cons_append, stripFrom_cons hc, stripFrom_cons hc]
      exact ih (c :: cur)

end

/-- What is added behind a text, with a space between, is added behind the stripped text. -/
lemma exists_stripComments_append (s t : Text) : ∃ y,
    stripComments (s ++ ' ' :: t) = stripComments s ++ y ∧ y ⊆ ' ' :: t :=
  exists_stripFrom_append [] s t

variable {x : Text}

lemma exists_head_splitPipelineLoop (s cur : Text) (depth : ℤ) (inString : Bool) : ∃ front parts,
      splitPipelineLoop std cur depth inString s = trim std (cur.reverse ++ front) :: parts := by
  induction s generalizing cur depth inString with
  | nil => exact ⟨[], [], by simp [splitPipelineLoop]⟩
  | cons c s ih =>
    have hpush : ∀ depth inString, ∃ front parts,
      splitPipelineLoop std (c :: cur) depth inString s =
        trim std (cur.reverse ++ front) :: parts := by
      intro depth inString
      obtain ⟨front, parts, h⟩ := ih (c :: cur) depth inString
      exact ⟨c :: front, parts, by rw [h]; simp⟩
    rw [splitPipelineLoop]
    split
    · exact hpush _ _
    · split
      · exact hpush _ _
      · split
        · exact hpush _ _
        · split
          · exact ⟨[], _, by rw [append_nil]⟩
          · exact hpush _ _

end XyzDB.Talk
