import Mathlib

/-!
# CPU lists of sysfs

`readCpuList` reads lists such as `0-7,16-23`.  The ids of a range are walked
by a 32-bit counter up to and including the range's end; the counter of a range
that ends at the largest 32-bit value never passes it.
-/

namespace Citor.CpuList

/-! ## The reader -/

abbrev Text := List UInt8

def comma : UInt8 := 44

def dash : UInt8 := 45

def plus : UInt8 := 43

def newline : UInt8 := 10

def isSpace (byte : UInt8) : Bool :=
  decide (byte = 32) || (decide (9 ≤ byte) && decide (byte ≤ 13))

def isDigit (byte : UInt8) : Bool :=
  decide (48 ≤ byte) && decide (byte ≤ 57)

def digitsValue (digits : Text) : ℕ :=
  digits.foldl (fun value digit => value * 10 + (digit.toNat - 48)) 0

/-- `std::stoul` in base 10: white space, at most one sign and digits are read
and what follows them is ignored; a minus negates modulo `2 ^ 64`.  `none` is
an exception. -/
def stoul (text : Text) : Option ℕ :=
  let trimmed := text.dropWhile isSpace
  let negative := decide (trimmed.head? = some dash)
  let unsigned :=
    if negative || decide (trimmed.head? = some plus) then trimmed.tail
    else trimmed
  let digits := unsigned.takeWhile isDigit
  if digits = [] then none
  else if 2 ^ 64 ≤ digitsValue digits then none
  else some (if negative then (2 ^ 64 - digitsValue digits) % 2 ^ 64
    else digitsValue digits)

/-- `static_cast<std::uint32_t>`, also of a counter that is incremented. -/
def uint32 (value : ℕ) : ℕ :=
  value % 2 ^ 32

/-- What `std::getline(in, line)` extracts. -/
def firstLine (content : Text) : Text :=
  content.takeWhile fun byte => byte ≠ newline

/-- What repeated `std::getline(ss, token, ',')` extracts. -/
def tokens : Text → List Text
  | [] => []
  | byte :: rest =>
      if byte = comma then [] :: tokens rest
      else
        match tokens rest with
        | [] => [[byte]]
        | token :: later => (byte :: token) :: later

/-- The counter loop over a range; `none` if the fuel does not last. -/
def pushRange : ℕ → ℕ → ℕ → List ℕ → Option (List ℕ)
  | 0, _, _, _ => none
  | fuel + 1, cpu, last, result =>
      if cpu ≤ last then
        pushRange fuel (uint32 (cpu + 1)) last (result ++ [cpu])
      else some result

/-- The body of the loop over the tokens. -/
def readToken (fuel : ℕ) (result : List ℕ) (token : Text) :
    Option (List ℕ) :=
  if token = [] then some result
  else
    match token.findIdx? (· == dash) with
    | none =>
        match stoul token with
        | none => some result
        | some value => some (result ++ [uint32 value])
    | some position =>
        match stoul (token.take position) with
        | none => some result
        | some first =>
            match stoul (token.drop (position + 1)) with
            | none => some result
            | some last =>
                pushRange fuel (uint32 first) (uint32 last) result

/-- `std::sort`, then `std::unique` and `erase`. -/
def sortUnique (result : List ℕ) : List ℕ :=
  (result.insertionSort (· ≤ ·)).destutter (· ≠ ·)

/-- `file` is `none` when the file cannot be opened. -/
def readCpuList (fuel : ℕ) (file : Option Text) : Option (List ℕ) :=
  match file with
  | none => some []
  | some content =>
      if content = [] then some []
      else
        ((tokens (firstLine content)).foldlM (readToken fuel) []).map
          sortUnique

/-! ## What a line means -/

/-- The numbers that `std::stoul` returns for a token. -/
def numbersRead (token : Text) : List ℕ :=
  match token.findIdx? (· == dash) with
  | none => (stoul token).toList
  | some position =>
      match stoul (token.take position) with
      | none => []
      | some first => first :: (stoul (token.drop (position + 1))).toList

/-- A token names an id: its own number, or one of its range. -/
def Names (token : Text) (id : ℕ) : Prop :=
  match token.findIdx? (· == dash) with
  | none => stoul token = some id
  | some position => ∃ first last, stoul (token.take position) = some first ∧
      stoul (token.drop (position + 1)) = some last ∧
      first ≤ id ∧ id ≤ last

/-- A range up to the largest 32-bit value. -/
def reachesTop (token : Text) : Bool :=
  match token.findIdx? (· == dash) with
  | none => false
  | some position =>
      (stoul (token.take position)).isSome &&
        decide (stoul (token.drop (position + 1)) = some (2 ^ 32 - 1))

/-- The reader terminates with the ids that the first line names, in order and
without duplicates. -/
def ListRight (content : Text) : Prop :=
  ∃ ids enough, (∀ fuel, enough ≤ fuel →
      readCpuList fuel (some content) = some ids) ∧
    ids.Pairwise (· < ·) ∧
    ∀ id, id ∈ ids ↔ ∃ token ∈ tokens (firstLine content), Names token id

theorem uint32_of_lt {value : ℕ} (hlt : value < 2 ^ 32) :
    uint32 value = value :=
  Nat.mod_eq_of_lt hlt

theorem uint32_lt (value : ℕ) : uint32 value < 2 ^ 32 :=
  Nat.mod_lt _ (by decide)

/-! ## Sorting and removing duplicates -/

theorem mem_destutter'_ne {id front : ℕ} {rest : List ℕ} :
    id ∈ rest.destutter' (· ≠ ·) front ↔ id ∈ front :: rest := by
  induction rest generalizing front with
  | nil => simp
  | cons head tail ih =>
      rw [List.destutter'_cons]
      split
      next => rw [List.mem_cons, ih, ← List.mem_cons]
      next hsame =>
        obtain rfl : front = head := not_not.1 hsame
        rw [ih, List.mem_cons, List.mem_cons, List.mem_cons, ← or_assoc,
          or_self]

theorem mem_sortUnique {id : ℕ} {result : List ℕ} :
    id ∈ sortUnique result ↔ id ∈ result := by
  have hkeep : id ∈ sortUnique result ↔
      id ∈ result.insertionSort (· ≤ ·) := by
    unfold sortUnique
    cases result.insertionSort (· ≤ ·) with
    | nil => rfl
    | cons front rest => rw [List.destutter_cons', mem_destutter'_ne]
  rw [hkeep, List.mem_insertionSort]

theorem isChain_lt {ids : List ℕ} (hsorted : ids.IsChain (· ≤ ·))
    (hapart : ids.IsChain (· ≠ ·)) : ids.IsChain (· < ·) := by
  induction ids with
  | nil => exact .nil
  | cons head tail ih =>
      cases tail with
      | nil => exact .singleton head
      | cons next rest =>
          rw [List.isChain_cons_cons] at hsorted hapart ⊢
          exact ⟨lt_of_le_of_ne hsorted.1 hapart.1, ih hsorted.2 hapart.2⟩

theorem pairwise_sortUnique (result : List ℕ) :
    (sortUnique result).Pairwise (· < ·) := by
  have hsorted : (sortUnique result).Pairwise (· ≤ ·) :=
    (List.pairwise_insertionSort _ _).sublist (List.destutter_sublist _ _)
  have hapart : (sortUnique result).IsChain (· ≠ ·) :=
    List.isChain_destutter _ _
  exact (isChain_lt hsorted.isChain hapart).pairwise

/-! ## The counter loop -/

/-- A range that ends below the largest value is walked to its end. -/
theorem pushRange_eq {last : ℕ} (hlast : last < 2 ^ 32 - 1)
    {fuel first : ℕ} (hfuel : last + 2 ≤ fuel + first) (hpos : 0 < fuel)
    (result : List ℕ) :
    pushRange fuel first last result =
      some (result ++ List.range' first (last + 1 - first)) := by
  induction fuel generalizing first result with
  | zero => omega
  | succ fuel ih =>
      unfold pushRange
      by_cases hle : first ≤ last
      · have hnext : uint32 (first + 1) = first + 1 :=
          uint32_of_lt (by omega)
        have hcount : last + 1 - first = (last + 1 - (first + 1)) + 1 := by
          omega
        rw [if_pos hle, hnext, ih (by omega) (by omega), hcount,
          List.range'_succ, List.append_assoc, List.singleton_append]
      · have hcount : last + 1 - first = 0 := by omega
        rw [if_neg hle, hcount, List.range'_zero, List.append_nil]

/-- The counter of a range that ends at the largest value never stops. -/
theorem pushRange_top (fuel : ℕ) {cpu : ℕ} (hcpu : cpu < 2 ^ 32)
    (result : List ℕ) : pushRange fuel cpu (2 ^ 32 - 1) result = none := by
  induction fuel generalizing cpu result with
  | zero => rfl
  | succ fuel ih =>
      unfold pushRange
      rw [if_pos (by omega)]
      exact ih (uint32_lt _) _

/-! ## Tokens -/

section Tokens

variable {token : Text}

theorem stoul_nil : stoul [] = none := by
  rfl

theorem readToken_nil (fuel : ℕ) (result : List ℕ) :
    readToken fuel result [] = some result := by
  rfl

/-- A token appends the ids it names, whatever the fuel beyond `2 ^ 32`. -/
theorem readToken_eq (hreads : ∀ value ∈ numbersRead token, value < 2 ^ 32)
    (htop : reachesTop token = false) :
    ∃ ids, (∀ fuel result, 2 ^ 32 ≤ fuel →
        readToken fuel result token = some (result ++ ids)) ∧
      ∀ id, id ∈ ids ↔ Names token id := by
  by_cases hempty : token = []
  · subst hempty
    refine ⟨[], fun fuel result _ => ?_, fun id => ?_⟩
    · rw [readToken_nil, List.append_nil]
    · simp [Names, stoul_nil]
  cases hdash : token.findIdx? (· == dash) with
  | none =>
      cases hvalue : stoul token with
      | none =>
          refine ⟨[], fun fuel result _ => ?_, fun id => ?_⟩
          · simp [readToken, hempty, hdash, hvalue]
          · simp [Names, hdash, hvalue]
      | some value =>
          have hlt : value < 2 ^ 32 :=
            hreads value (by simp [numbersRead, hdash, hvalue])
          refine ⟨[value], fun fuel result _ => ?_, fun id => ?_⟩
          · simp [readToken, hempty, hdash, hvalue, uint32_of_lt hlt]
          · simp [Names, hdash, hvalue, eq_comm]
  | some position =>
      cases hfirst : stoul (token.take position) with
      | none =>
          refine ⟨[], fun fuel result _ => ?_, fun id => ?_⟩
          · simp [readToken, hempty, hdash, hfirst]
          · simp [Names, hdash, hfirst]
      | some first =>
          have hfirstLt : first < 2 ^ 32 :=
            hreads first (by simp [numbersRead, hdash, hfirst])
          cases hlast : stoul (token.drop (position + 1)) with
          | none =>
              refine ⟨[], fun fuel result _ => ?_, fun id => ?_⟩
              · simp [readToken, hempty, hdash, hfirst, hlast]
              · simp [Names, hdash, hlast]
          | some last =>
              have hlastLt : last < 2 ^ 32 :=
                hreads last (by simp [numbersRead, hdash, hfirst, hlast])
              have hbelow : last < 2 ^ 32 - 1 := by
                by_contra hge
                obtain rfl : last = 2 ^ 32 - 1 := by omega
                simp [reachesTop, hdash, hfirst, hlast] at htop
              refine ⟨List.range' first (last + 1 - first),
                fun fuel result hfuel => ?_, fun id => ?_⟩
              · have hrange : pushRange fuel first last result =
                    some (result ++ List.range' first (last + 1 - first)) :=
                  pushRange_eq hbelow (by omega) (by omega) result
                simpa [readToken, hempty, hdash, hfirst, hlast,
                  uint32_of_lt hfirstLt, uint32_of_lt hlastLt] using hrange
              · have hnames : Names token id ↔ first ≤ id ∧ id ≤ last := by
                  simp [Names, hdash, hfirst, hlast]
                rw [hnames, List.mem_range'_1]
                omega

/-- The fuel never lasts for a range up to the largest value. -/
theorem readToken_top (htop : reachesTop token = true) (fuel : ℕ)
    (result : List ℕ) : readToken fuel result token = none := by
  have hempty : token ≠ [] := by
    rintro rfl
    simp [reachesTop] at htop
  have hsame : uint32 (2 ^ 32 - 1) = 2 ^ 32 - 1 := uint32_of_lt (by decide)
  unfold reachesTop at htop
  split at htop
  next => simp at htop
  next position hdash =>
    rw [Bool.and_eq_true, decide_eq_true_eq] at htop
    obtain ⟨first, hfirst⟩ := Option.isSome_iff_exists.1 htop.1
    simp only [readToken, hempty, if_false, hdash, hfirst, htop.2, hsame]
    exact pushRange_top fuel (uint32_lt first) result

end Tokens

/-! ## The loop over the tokens -/

theorem readTokens_eq {line : List Text}
    (hreads : ∀ token ∈ line, ∀ value ∈ numbersRead token, value < 2 ^ 32)
    (htop : ∀ token ∈ line, reachesTop token = false) :
    ∃ ids, (∀ fuel result, 2 ^ 32 ≤ fuel →
        line.foldlM (readToken fuel) result = some (result ++ ids)) ∧
      ∀ id, id ∈ ids ↔ ∃ token ∈ line, Names token id := by
  induction line with
  | nil => exact ⟨[], fun fuel result _ => by simp, fun id => by simp⟩
  | cons token later ih =>
      obtain ⟨ids, hread, hids⟩ :=
        readToken_eq (hreads token (.head _)) (htop token (.head _))
      obtain ⟨rest, hrest, hmem⟩ :=
        ih (fun other hother => hreads other (.tail _ hother))
          (fun other hother => htop other (.tail _ hother))
      refine ⟨ids ++ rest, fun fuel result hfuel => ?_, fun id => ?_⟩
      · rw [List.foldlM_cons, hread fuel result hfuel, Option.bind_eq_bind,
          Option.bind_some, hrest fuel _ hfuel, List.append_assoc]
      · rw [List.mem_append, hids, hmem]
        simp

theorem readTokens_top {line : List Text}
    (htop : ∃ token ∈ line, reachesTop token = true) (fuel : ℕ)
    (result : List ℕ) : line.foldlM (readToken fuel) result = none := by
  induction line generalizing result with
  | nil => simp at htop
  | cons token later ih =>
      rw [List.foldlM_cons]
      by_cases hhere : reachesTop token = true
      · rw [readToken_top hhere]
        rfl
      · have hlater : ∃ token ∈ later, reachesTop token = true := by
          simpa [hhere] using htop
        cases readToken fuel result token with
        | none => rfl
        | some next => exact ih hlater next

/-- A line with a range up to the largest value is never read to its end. -/
theorem readCpuList_top {content : Text}
    (htop : ∃ token ∈ tokens (firstLine content), reachesTop token = true)
    (fuel : ℕ) : readCpuList fuel (some content) = none := by
  have hcontent : content ≠ [] := by
    rintro rfl
    simp [firstLine, tokens] at htop
  simp [readCpuList, hcontent, readTokens_top htop]

/-- The reader is right about a line exactly when no range on it ends at the
largest 32-bit value. -/
theorem listRight_iff (content : Text)
    (hreads : ∀ token ∈ tokens (firstLine content),
      ∀ value ∈ numbersRead token, value < 2 ^ 32) :
    ListRight content ↔
      ¬ ∃ token ∈ tokens (firstLine content), reachesTop token = true := by
  constructor
  · rintro ⟨ids, enough, hread, -⟩ htop
    have hnone := readCpuList_top htop enough
    rw [hread enough le_rfl] at hnone
    simp at hnone
  · intro htop
    obtain ⟨ids, hread, hids⟩ := readTokens_eq hreads
      fun token htoken => by
        by_contra hreach
        exact htop ⟨token, htoken, by simpa using hreach⟩
    refine ⟨sortUnique ids, 2 ^ 32, fun fuel hfuel => ?_,
      pairwise_sortUnique ids, fun id => ?_⟩
    · by_cases hcontent : content = []
      · subst hcontent
        have hnil := hread fuel [] hfuel
        simp only [firstLine, List.takeWhile_nil, tokens, List.foldlM_nil,
          Option.pure_def, Option.some.injEq, List.nil_append] at hnil
        subst hnil
        rfl
      · simp [readCpuList, hcontent, hread fuel [] hfuel]
    · rw [mem_sortUnique, hids]

/-- `0-2,8,5-,1-1` and a line end. -/
def mixedList : Text :=
  [48, 45, 50, 44, 56, 44, 53, 45, 44, 49, 45, 49, 10]

theorem listRight_mixedList : ListRight mixedList :=
  (listRight_iff mixedList (by decide)).2 (by decide)

example : readCpuList 5 (some mixedList) = some [0, 1, 2, 8] := by decide

/-- `0-4294967295`. -/
def topList : Text :=
  [48, 45, 52, 50, 57, 52, 57, 54, 55, 50, 57, 53]

theorem not_listRight_topList : ¬ ListRight topList := by
  rintro ⟨ids, enough, hread, -⟩
  have htop : ∃ token ∈ tokens (firstLine topList), reachesTop token = true :=
    ⟨topList, by decide, by decide⟩
  have hnone := readCpuList_top htop enough
  rw [hread enough le_rfl] at hnone
  simp at hnone

end Citor.CpuList
