import Mathlib.Data.List.GetD
import Mathlib.Data.List.TakeWhile
import UnitE.Lib.Except
import UnitE.Spec.Mnemonic

/-! The text of a mnemonic. For a word list of distinct words that are not empty and hold no
white space and no NUL, `GetWord` and `GetWordOffset` are inverse on the indices of the list.
`Encode` writes the words of its 11-bit indices joined by spaces, or by ideographic spaces in
Japanese; `Decode`, when unilib's NFKD keeps phrases of the words and turns ideographic spaces
into spaces, trims, normalises and splits that text back into the same indices. What is left of
both functions is the packing of bits, in `Proofs.Mnemonic`. -/

namespace UnitE.Mnemonic

def wordListBytes (words : List (List UInt8)) : List UInt8 := words.flatMap (· ++ [newline])

/-- What `Encode` and `Decode` ask of the word list `pwl` of a language: it holds 2048
distinct `words`, each followed by a newline, and a word is not empty and has no white space and
no NUL. -/
structure IsWordList (pwl : List UInt8) (words : List (List UInt8)) : Prop where
  eq_bytes : pwl = wordListBytes words
  length_eq : words.length = 2048
  nodup : words.Nodup
  ne_nil : ∀ w ∈ words, w ≠ []
  word_byte : ∀ w ∈ words, ∀ b ∈ w, isspace b = false ∧ b ≠ 0

/-- The text `Encode` writes for a phrase: its words joined by spaces, by ideographic spaces in
Japanese. -/
def phrase (language : Language) (ws : List (List UInt8)) : List UInt8 :=
  if language = .JAPANESE then ideographicSpace.intercalate ws else [space].intercalate ws

/-- unilib's NFKD on the phrases of a word list: a phrase whose words are separated by spaces is
kept, and ideographic spaces between words become spaces. This holds when NFKD keeps each word,
since it reorders marks only up to the next starter, which a space is, and it decomposes U+3000
to a space. -/
structure NormalisesPhrases (NormaliseUnicode : List UInt8 → List UInt8)
    (words : List (List UInt8)) : Prop where
  keeps : ∀ ws : List (List UInt8), (∀ w ∈ ws, w ∈ words) →
    NormaliseUnicode ([space].intercalate ws) = [space].intercalate ws
  ideographic : ∀ ws : List (List UInt8), (∀ w ∈ ws, w ∈ words) →
    NormaliseUnicode (ideographicSpace.intercalate ws) = [space].intercalate ws

theorem ne_newline_of_isspace {b : UInt8} (hb : isspace b = false) : b ≠ newline := by
  rintro rfl
  exact absurd hb (by decide)

theorem ne_space_of_isspace {b : UInt8} (hb : isspace b = false) : b ≠ space := by
  rintro rfl
  exact absurd hb (by decide)

section Intercalate

variable (sep : List UInt8)

theorem intercalate_cons (w : List UInt8) (ws : List (List UInt8)) :
    sep.intercalate (w :: ws) = w ++ ws.flatMap (sep ++ ·) := by
  induction ws generalizing w with
  | nil => simp
  | cons w' ws ih => rw [List.intercalate_cons_cons, ih w', List.flatMap_cons, List.append_assoc,
      List.append_assoc]

theorem mem_intercalate {b : UInt8} {ws : List (List UInt8)} (h : b ∈ sep.intercalate ws) :
    b ∈ sep ∨ ∃ w ∈ ws, b ∈ w := by
  cases ws with
  | nil => simp at h
  | cons w ws =>
    rw [intercalate_cons, List.mem_append, List.mem_flatMap] at h
    rcases h with h | ⟨w', hw', h⟩
    · exact .inr ⟨w, List.mem_cons_self, h⟩
    · rcases List.mem_append.1 h with h | h
      · exact .inl h
      · exact .inr ⟨w', List.mem_cons_of_mem _ hw', h⟩

theorem head?_intercalate {w : List UInt8} (hw : w ≠ []) (ws : List (List UInt8)) :
    (sep.intercalate (w :: ws)).head? = w.head? := by
  rw [intercalate_cons, List.head?_append_of_ne_nil _ hw]

theorem getLast?_intercalate (ws : List (List UInt8)) :
    ∀ w, (∀ w' ∈ w :: ws, w' ≠ []) →
      (sep.intercalate (w :: ws)).getLast? = ((w :: ws).getLast (List.cons_ne_nil _ _)).getLast? := by
  induction ws with
  | nil => intro w _; simp
  | cons w' ws ih =>
    intro w hws
    have hw' : w' ≠ [] := hws w' (by simp)
    have hne : sep.intercalate (w' :: ws) ≠ [] := by
      intro h
      have := head?_intercalate sep hw' ws
      rw [h, List.head?_nil] at this
      exact hw' (List.head?_eq_none_iff.1 this.symm)
    rw [List.intercalate_cons_cons, List.getLast?_append_of_ne_nil _ hne,
      ih w' (fun v hv => hws v (List.mem_cons_of_mem _ hv)), List.getLast_cons_cons]

theorem length_intercalate_le {sep' : List UInt8} (h : sep.length ≤ sep'.length)
    (ws : List (List UInt8)) : (sep.intercalate ws).length ≤ (sep'.intercalate ws).length := by
  cases ws with
  | nil => simp
  | cons w ws =>
    rw [intercalate_cons, intercalate_cons, List.length_append, List.length_append]
    have : (ws.flatMap (sep ++ ·)).length ≤ (ws.flatMap (sep' ++ ·)).length := by
      induction ws with
      | nil => simp
      | cons v ws ih => simp only [List.flatMap_cons, List.length_append]; omega
    omega

theorem length_flatMap_append_le {n : ℕ} (ws : List (List UInt8))
    (hws : ∀ w ∈ ws, w.length ≤ n) : (ws.flatMap (sep ++ ·)).length ≤ (n + sep.length) * ws.length := by
  induction ws with
  | nil => simp
  | cons v ws ih =>
    rw [List.flatMap_cons, List.length_append, List.length_append, List.length_cons, Nat.mul_succ]
    have hv := hws v List.mem_cons_self
    have hrest := ih fun u hu => hws u (List.mem_cons_of_mem _ hu)
    omega

theorem length_intercalate_le_mul {n : ℕ} (ws : List (List UInt8))
    (hws : ∀ w ∈ ws, w.length ≤ n) : (sep.intercalate ws).length ≤ (n + sep.length) * ws.length := by
  cases ws with
  | nil => simp
  | cons w ws =>
    rw [intercalate_cons, List.length_append, List.length_cons, Nat.mul_succ]
    have hw := hws w List.mem_cons_self
    have hrest := length_flatMap_append_le sep ws fun u hu => hws u (List.mem_cons_of_mem _ hu)
    omega

end Intercalate

section GetWord

theorem wordListBytes_cons (w : List UInt8) (ws : List (List UInt8)) :
    wordListBytes (w :: ws) = w ++ newline :: wordListBytes ws := by
  simp [wordListBytes]

theorem wordListBytes_ne_nil {ws : List (List UInt8)} (h : ws ≠ []) : wordListBytes ws ≠ [] := by
  obtain ⟨w, ws, rfl⟩ := List.exists_cons_of_ne_nil h
  simp [wordListBytes_cons]

theorem readWord_append {w : List UInt8} (hw : newline ∉ w) (rest : List UInt8) :
    readWord (w ++ newline :: rest) = some w := by
  induction w with
  | nil => simp [readWord]
  | cons c w ih =>
    have hc : c ≠ newline := fun h => hw (h ▸ List.mem_cons_self)
    rw [List.cons_append, readWord, if_neg hc, ih (fun h => hw (List.mem_cons_of_mem _ h))]
    rfl

theorem skipWords_append {w rest : List UInt8} (hw : newline ∉ w) (hrest : rest ≠ []) (o : Nat) :
    skipWords (o + 1) (w ++ newline :: rest) = skipWords o rest := by
  induction w with
  | nil => simp [skipWords, hrest]
  | cons c w ih =>
    have hc : c ≠ newline := fun h => hw (h ▸ List.mem_cons_self)
    rw [List.cons_append, skipWords, if_neg (by simp), if_neg hc,
      ih (fun h => hw (List.mem_cons_of_mem _ h))]

theorem GetWord_wordListBytes {ws : List (List UInt8)} (hnl : ∀ w ∈ ws, newline ∉ w) :
    ∀ o (ho : o < ws.length), GetWord o (wordListBytes ws) = some ws[o] := by
  induction ws with
  | nil => intro o ho; simp at ho
  | cons w ws ih =>
    intro o ho
    have hw := hnl w List.mem_cons_self
    cases o with
    | zero => simp [GetWord, skipWords, wordListBytes_cons, readWord_append hw]
    | succ o =>
      have hws : ws ≠ [] := List.ne_nil_of_length_pos (by simp at ho; omega)
      rw [GetWord, wordListBytes_cons, skipWords_append hw (wordListBytes_ne_nil hws), ← GetWord,
        ih (fun v hv => hnl v (List.mem_cons_of_mem _ hv)) o (by simp at ho; omega)]
      rfl

/-- Reading the bytes of a word without newlines moves the count of bytes past it, and keeps the
flag exactly when the word continues `p` from there. -/
theorem wordOffsetLoop_append (p : List UInt8) {w : List UInt8} (hw : newline ∉ w)
    (rest : List UInt8) : ∀ i c f, wordOffsetLoop p (w ++ rest) i c f =
      wordOffsetLoop p rest i (c + w.length) (f && w.isPrefixOf (p.drop c)) := by
  induction w with
  | nil => intro i c f; simp
  | cons b w ih =>
    intro i c f
    have hb : b ≠ newline := fun h => hw (h ▸ List.mem_cons_self)
    rw [List.cons_append, wordOffsetLoop, if_neg hb, ih (fun h => hw (List.mem_cons_of_mem _ h)),
      List.length_cons, show c + 1 + w.length = c + (w.length + 1) by omega]
    congr 1
    by_cases hc : c < p.length
    · -- the byte read must be the one of `p` at `c`
      rw [List.drop_eq_getElem_cons hc, List.getElem?_eq_getElem hc]
      by_cases hpb : b = p[c] <;> cases f <;> simp [List.isPrefixOf, hc, hpb, Ne.symm]
    · rw [List.drop_eq_nil_of_le (show p.length ≤ c by omega)]
      simp [List.isPrefixOf, hc]

theorem wordOffsetLoop_word (p : List UInt8) {w : List UInt8} (hw : newline ∉ w)
    (rest : List UInt8) (i : Nat) :
    wordOffsetLoop p (w ++ newline :: rest) i 0 true =
      if w = p then some i else wordOffsetLoop p rest (i + 1) 0 true := by
  rw [wordOffsetLoop_append p hw, wordOffsetLoop, if_pos rfl, List.drop_zero, Nat.zero_add,
    Bool.true_and]
  have hiff : (w.isPrefixOf p && w.length == p.length) = true ↔ w = p := by
    rw [Bool.and_eq_true, List.isPrefixOf_iff_prefix, beq_iff_eq]
    exact ⟨fun h => h.1.eq_of_length h.2, fun h => h ▸ ⟨List.prefix_refl _, rfl⟩⟩
  by_cases hwp : w = p
  · rw [if_pos (hiff.2 hwp), if_pos hwp]
  · rw [if_neg (mt hiff.1 hwp), if_neg hwp]

theorem wordOffsetLoop_wordListBytes {ws : List (List UInt8)} (hnl : ∀ w ∈ ws, newline ∉ w)
    (hnd : ws.Nodup) : ∀ o (ho : o < ws.length) i,
      wordOffsetLoop ws[o] (wordListBytes ws) i 0 true = some (i + o) := by
  induction ws with
  | nil => intro o ho; simp at ho
  | cons w ws ih =>
    intro o ho i
    rw [wordListBytes_cons, wordOffsetLoop_word _ (hnl w List.mem_cons_self)]
    cases o with
    | zero => simp
    | succ o =>
      have ho' : o < ws.length := by simp at ho; omega
      -- a later word differs from the first, as the words are distinct
      have hne : w ≠ ws[o] := fun h => (List.nodup_cons.1 hnd).1 (h ▸ List.getElem_mem ho')
      rw [List.getElem_cons_succ, if_neg hne,
        ih (fun v hv => hnl v (List.mem_cons_of_mem _ hv)) (List.nodup_cons.1 hnd).2 o ho',
        show i + 1 + o = i + (o + 1) by omega]

/-- `GetWordOffset` finds the index of each word of a list of distinct words without
newlines. -/
theorem GetWordOffset_wordListBytes {ws : List (List UInt8)} (hnl : ∀ w ∈ ws, newline ∉ w)
    (hnd : ws.Nodup) (o : Nat) (ho : o < ws.length) :
    GetWordOffset ws[o] (wordListBytes ws) = some o := by
  rw [GetWordOffset, wordOffsetLoop_wordListBytes hnl hnd o ho, Nat.zero_add]

end GetWord

section Text

variable {search replace : List UInt8}

@[simp] theorem ReplaceStrInPlace_nil : ReplaceStrInPlace search replace [] = [] := by
  rw [ReplaceStrInPlace]

theorem ReplaceStrInPlace_cons_of_ne {c : UInt8} (hc : search.head? ≠ some c) (rest : List UInt8) :
    ReplaceStrInPlace search replace (c :: rest) = c :: ReplaceStrInPlace search replace rest := by
  rw [ReplaceStrInPlace, dif_neg]
  rintro ⟨hne, hpre⟩
  obtain ⟨x, xs, rfl⟩ := List.exists_cons_of_ne_nil hne
  exact hc (by rw [(List.cons_prefix_cons.1 hpre).1]; rfl)

theorem ReplaceStrInPlace_append_of_forall {w : List UInt8} (hw : ∀ c ∈ w, search.head? ≠ some c)
    (rest : List UInt8) :
    ReplaceStrInPlace search replace (w ++ rest) = w ++ ReplaceStrInPlace search replace rest := by
  induction w with
  | nil => rfl
  | cons c w ih =>
    rw [List.cons_append, ReplaceStrInPlace_cons_of_ne (hw c List.mem_cons_self),
      ih (fun c' hc' => hw c' (List.mem_cons_of_mem _ hc'))]
    rfl

theorem ReplaceStrInPlace_search_append (hs : search ≠ []) (rest : List UInt8) :
    ReplaceStrInPlace search replace (search ++ rest) =
      replace ++ ReplaceStrInPlace search replace rest := by
  obtain ⟨c, s, rfl⟩ := List.exists_cons_of_ne_nil hs
  rw [List.cons_append, ReplaceStrInPlace,
    dif_pos ⟨hs, by rw [← List.cons_append]; exact List.prefix_append _ _⟩]
  simp

/-- Replacing the separator of a phrase whose words do not hold its first byte replaces exactly
the separators. -/
theorem ReplaceStrInPlace_intercalate (hs : search ≠ []) (ws : List (List UInt8))
    (hws : ∀ w ∈ ws, ∀ c ∈ w, search.head? ≠ some c) :
    ReplaceStrInPlace search replace (search.intercalate ws) = replace.intercalate ws := by
  induction ws with
  | nil => simp
  | cons w ws ih =>
    have hw := hws w List.mem_cons_self
    cases ws with
    | nil =>
      rw [List.intercalate_singleton, List.intercalate_singleton]
      have h : ReplaceStrInPlace search replace (w ++ []) =
          w ++ ReplaceStrInPlace search replace [] := ReplaceStrInPlace_append_of_forall hw []
      simpa using h
    | cons w' ws =>
      rw [List.intercalate_cons_cons, List.append_assoc, ReplaceStrInPlace_append_of_forall hw,
        ReplaceStrInPlace_search_append hs,
        ih (fun v hv => hws v (List.mem_cons_of_mem _ hv)), List.intercalate_cons_cons,
        List.append_assoc]

theorem LTrimWhitespace_of_head {s : List UInt8} (h : ∀ b ∈ s.head?, isspace b = false) :
    LTrimWhitespace s = s := by
  cases s with
  | nil => rfl
  | cons b s => exact List.dropWhile_cons_of_neg (by simp [h b rfl])

theorem RTrimWhitespace_of_getLast {s : List UInt8} (h : ∀ b ∈ s.getLast?, isspace b = false) :
    RTrimWhitespace s = s := by
  rw [RTrimWhitespace, ← LTrimWhitespace, LTrimWhitespace_of_head (by rwa [List.head?_reverse]),
    List.reverse_reverse]

theorem TrimWhitespace_intercalate (sep : List UInt8) {ws : List (List UInt8)} (hne : ws ≠ [])
    (hws : ∀ w ∈ ws, w ≠ [] ∧ ∀ b ∈ w, isspace b = false) :
    TrimWhitespace (sep.intercalate ws) = sep.intercalate ws := by
  obtain ⟨w, ws, rfl⟩ := List.exists_cons_of_ne_nil hne
  have hw := hws w List.mem_cons_self
  rw [TrimWhitespace, LTrimWhitespace_of_head, RTrimWhitespace_of_getLast]
  · rw [getLast?_intercalate sep ws w (fun v hv => (hws v hv).1)]
    intro b hb
    exact (hws _ (List.getLast_mem _)).2 b (List.mem_of_getLast? hb)
  · rw [head?_intercalate sep hw.1]
    intro b hb
    exact hw.2 b (List.mem_of_mem_head? hb)

theorem strtok_intercalate {ws : List (List UInt8)} (hne : ws ≠ [])
    (hws : ∀ w ∈ ws, w ≠ [] ∧ space ∉ w) : strtok ([space].intercalate ws) = ws := by
  rw [strtok, List.splitOn_intercalate space (fun w hw => (hws w hw).2) hne, List.filter_eq_self]
  intro w hw
  simp [(hws w hw).1]

end Text

section Phrase

theorem foldl_appendWord_of_ne_nil {acc : List UInt8} (hacc : acc ≠ []) (ws : List (List UInt8)) :
    ws.foldl appendWord acc = acc ++ ws.flatMap ([space] ++ ·) := by
  induction ws generalizing acc with
  | nil => simp
  | cons w ws ih =>
    rw [List.foldl_cons, appendWord, if_pos hacc, ih (by simp), List.flatMap_cons]
    simp only [List.append_assoc]

theorem foldl_appendWord {ws : List (List UInt8)} (hws : ∀ w ∈ ws, w ≠ []) :
    ws.foldl appendWord [] = [space].intercalate ws := by
  cases ws with
  | nil => rfl
  | cons w ws =>
    rw [List.foldl_cons, appendWord, if_neg (by simp), List.nil_append,
      foldl_appendWord_of_ne_nil (hws w List.mem_cons_self), intercalate_cons]

def wordsAt (words : List (List UInt8)) (os : List Nat) : List (List UInt8) :=
  os.map (words.getD · [])

variable {pwl : List UInt8} {words : List (List UInt8)}

theorem mem_of_mem_wordsAt (hwl : IsWordList pwl words) {os : List Nat}
    (hos : ∀ o ∈ os, o < 2048) {w : List UInt8} (hw : w ∈ wordsAt words os) : w ∈ words := by
  obtain ⟨o, ho, rfl⟩ := List.mem_map.1 hw
  rw [List.getD_eq_getElem _ _ (by rw [hwl.length_eq]; exact hos o ho)]
  exact List.getElem_mem _

theorem newline_not_mem (hwl : IsWordList pwl words) {w : List UInt8} (hw : w ∈ words) :
    newline ∉ w := fun h => ne_newline_of_isspace (hwl.word_byte w hw newline h).1 rfl

theorem foldlM_GetWord (hwl : IsWordList pwl words) (n : Nat) (os : List Nat)
    (hos : ∀ o ∈ os, o < 2048) (acc : List UInt8) :
    os.foldlM (encodeWord pwl n) acc = .ok ((wordsAt words os).foldl appendWord acc) := by
  induction os generalizing acc with
  | nil => rfl
  | cons o os ih =>
    have ho : o < words.length := by rw [hwl.length_eq]; exact hos o List.mem_cons_self
    rw [List.foldlM_cons, encodeWord, hwl.eq_bytes,
      GetWord_wordListBytes (fun w hw => newline_not_mem hwl hw) o ho, ← hwl.eq_bytes]
    rw [wordsAt, List.map_cons, List.foldl_cons, List.getD_eq_getElem _ _ ho, ← wordsAt]
    exact ih (fun o' ho' => hos o' (List.mem_cons_of_mem _ ho')) _

theorem mapM_GetWordOffset (hwl : IsWordList pwl words) (os : List Nat)
    (hos : ∀ o ∈ os, o < 2048) :
    (wordsAt words os).mapM (lookupWord pwl) = .ok os := by
  induction os with
  | nil => rfl
  | cons o os ih =>
    have ho : o < words.length := by rw [hwl.length_eq]; exact hos o List.mem_cons_self
    rw [wordsAt, List.map_cons, List.mapM_cons, List.getD_eq_getElem _ _ ho, lookupWord,
      hwl.eq_bytes,
      GetWordOffset_wordListBytes (fun w hw => newline_not_mem hwl hw) hwl.nodup o ho,
      ← hwl.eq_bytes, ← wordsAt, ih (fun o' ho' => hos o' (List.mem_cons_of_mem _ ho'))]
    rfl

end Phrase

section Codec

variable (CSHA256 : List UInt8 → Vector UInt8 32)

/-- The bytes `Encode` cuts into indices: the entropy, the first bytes of its hash, and zeros to
32 bytes after the entropy. -/
def encodeInput (vEntropy : List UInt8) : List UInt8 :=
  let nCsSize := vEntropy.length / 4
  let ncb := nCsSize / 8 + if nCsSize % 8 ≠ 0 then 1 else 0
  vEntropy ++ ((CSHA256 vEntropy).toList.take ncb ++ List.replicate (32 - ncb) 0)

def encodeIndices (vEntropy : List UInt8) : List Nat :=
  wordIndices (encodeInput CSHA256 vEntropy) (vEntropy.length * 8 + vEntropy.length / 4) 0

/-- What `Decode` does with the indices of the words it looked up. -/
def decodeIndices (vWordInts : List Nat) (fIgnoreChecksum : Bool) :
    Except MnemonicError (List UInt8) := do
  if !fIgnoreChecksum && vWordInts.length % 3 != 0 then throw .wordCountNotDivisible
  let nBits := vWordInts.length * 11
  let nBytes := nBits / 8 + (if nBits % 8 = 0 then 0 else 1)
  let vEntropy := decodeLoop (List.replicate nBytes 0) 0 vWordInts
  if fIgnoreChecksum then return vEntropy
  let nLenChecksum := nBits / 32
  let nLenEntropy := nBits - nLenChecksum
  let nBytesEntropy := nLenEntropy / 8
  let nBytesChecksum := nLenChecksum / 8 + (if nLenChecksum % 8 = 0 then 0 else 1)
  let vCS := (vEntropy.drop nBytesEntropy).take nBytesChecksum
  let vEntropy := vEntropy.take nBytesEntropy
  let hash := CSHA256 vEntropy
  let vCSTest := hash.toList.take nBytesChecksum
  let r := nLenChecksum % 8
  let vCSTest :=
    if r > 0 then
      vCSTest.modify (nBytesChecksum - 1) (· &&& UInt8.ofNat (((1 <<< r) - 1) <<< (8 - r)))
    else vCSTest
  if vCSTest ≠ vCS then throw .checksumMismatch
  return vEntropy

theorem EncodeWordIndex_lt (vIn : List UInt8) (i : Nat) : EncodeWordIndex vIn i < 2048 := by
  unfold EncodeWordIndex
  rw [show (0x7FF : Nat) = 2 ^ 11 - 1 from rfl, Nat.and_two_pow_sub_one_eq_mod]
  exact Nat.mod_lt _ (Nat.two_pow_pos 11)

theorem lt_of_mem_wordIndices {vIn : List UInt8} {nBits i o : Nat}
    (h : o ∈ wordIndices vIn nBits i) : o < 2048 := by
  fun_induction wordIndices vIn nBits i with
  | case1 i _ ih =>
    rcases List.mem_cons.1 h with rfl | h
    · exact EncodeWordIndex_lt _ _
    · exact ih h
  | case2 => simp at h

variable {CSHA256} {mnLanguages : Language → List UInt8} {language : Language}
  {words : List (List UInt8)}

theorem Encode_eq (hwl : IsWordList (mnLanguages language) words) (vEntropy : List UInt8)
    (hlo : 1 ≤ vEntropy.length / 4) (hhi : vEntropy.length / 4 ≤ 256) :
    Encode CSHA256 mnLanguages language vEntropy =
      .ok (phrase language (wordsAt words (encodeIndices CSHA256 vEntropy))) := by
  -- the indices are below 2048, so their words are words of the list
  have hws : ∀ {vIn nBits i w}, w ∈ wordsAt words (wordIndices vIn nBits i) → w ∈ words :=
    fun hw => mem_of_mem_wordsAt hwl (fun _ ho => lt_of_mem_wordIndices ho) hw
  rw [Encode, if_neg (by omega)]
  simp only
  rw [foldlM_GetWord hwl _ _ (fun _ ho => lt_of_mem_wordIndices ho), Except.ok_bind,
    foldl_appendWord (fun w hw => hwl.ne_nil w (hws hw))]
  unfold phrase
  split
  · -- the spaces between the words are the only ones
    rw [ReplaceStrInPlace_intercalate (by simp)]
    · rfl
    · intro w hw c hc
      simpa [space] using (ne_space_of_isspace (hwl.word_byte w (hws hw) c hc).1).symm
  · rfl

/-- `Decode` of the phrase of some indices, shorter than its buffer, looks up the same indices:
what is left of it is `decodeIndices`. -/
theorem Decode_phrase (hwl : IsWordList (mnLanguages language) words)
    {NormaliseUnicode : List UInt8 → List UInt8} (hnfkd : NormalisesPhrases NormaliseUnicode words)
    {os : List Nat} (hos : ∀ o ∈ os, o < 2048) (hne : os ≠ [])
    (hlen : (phrase language (wordsAt words os)).length < 2048) (fIgnoreChecksum : Bool) :
    Decode CSHA256 NormaliseUnicode mnLanguages language (phrase language (wordsAt words os))
      fIgnoreChecksum = decodeIndices CSHA256 os fIgnoreChecksum := by
  have hws : ∀ w ∈ wordsAt words os, w ∈ words := fun w hw => mem_of_mem_wordsAt hwl hos hw
  have hwsne : wordsAt words os ≠ [] := by simpa [wordsAt] using hne
  have hbyte : ∀ w ∈ wordsAt words os, w ≠ [] ∧ ∀ b ∈ w, isspace b = false :=
    fun w hw => ⟨hwl.ne_nil w (hws w hw), fun b hb => (hwl.word_byte w (hws w hw) b hb).1⟩
  -- trimming and normalising leave the words joined by spaces
  have htext : NormaliseUnicode (TrimWhitespace (phrase language (wordsAt words os))) =
      [space].intercalate (wordsAt words os) := by
    unfold phrase
    split
    · rw [TrimWhitespace_intercalate _ hwsne hbyte, hnfkd.ideographic _ hws]
    · rw [TrimWhitespace_intercalate _ hwsne hbyte, hnfkd.keeps _ hws]
  have hshort : ([space].intercalate (wordsAt words os)).length < 2048 := by
    refine Nat.lt_of_le_of_lt ?_ hlen
    unfold phrase
    split
    · exact length_intercalate_le _ (by simp [ideographicSpace]) _
    · exact le_rfl
  have hnul : ([space].intercalate (wordsAt words os)).takeWhile (· != 0) =
      [space].intercalate (wordsAt words os) := by
    rw [List.takeWhile_eq_self_iff]
    intro b hb
    rcases mem_intercalate _ hb with hb | ⟨w, hw, hb⟩
    · simp [List.mem_singleton.1 hb, space]
    · simpa using (hwl.word_byte w (hws w hw) b hb).2
  have htok : strtok ([space].intercalate (wordsAt words os)) = wordsAt words os :=
    strtok_intercalate hwsne fun w hw =>
      ⟨(hbyte w hw).1, fun h => ne_space_of_isspace ((hbyte w hw).2 space h) rfl⟩
  rw [Decode, htext, if_neg (by omega)]
  simp only
  rw [hnul, htok, mapM_GetWordOffset hwl os hos, Except.ok_bind]
  rfl

end Codec

end UnitE.Mnemonic
