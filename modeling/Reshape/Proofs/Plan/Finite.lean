import Reshape.Proofs.Json.RoundTrip
import Reshape.Proofs.Plan.Material
import Reshape.Proofs.Program.Numbers
import Reshape.Proofs.Program.Sequence

/-!
Where an output is null as a document but not as a value.

* `Json.at?_ofValue`: at every place of the document of a value stands the document of what stands
  there in the value.
* `Json.isFinite_of_within`: the floats in the value of a document are finite.
* `HasHugeNumeral`: a numeral of a text is too large for a double.
* `isFinite_or_huge`: only such a numeral makes a float of an output infinite.
* `ofText_constant`: the plan of a key and a numeral.
* `finite_or_huge`: an output is null exactly where it is null as a value or infinite, and a
  constant exactly if its numeral is too large.
-/

namespace Reshape

/-! ### Places of documents -/

namespace Json

variable {value : Value}

lemma child?_ofValue (value : Value) (step : Place.Step) :
    (ofValue value).child? step = (value.child? step).map ofValue := by
  cases value with
  | null | boolean _ | string _ => rfl
  | number n =>
      rcases ofNumber_cases n with h | ⟨m, h⟩
      · rw [ofValue, h]
        rfl
      · rw [ofValue, h]
        rfl
  | array items =>
      rw [ofValue, ofValues_eq_map]
      cases step with
      | key name => rfl
      | index i => exact List.getElem?_map
  | object entries =>
      rw [ofValue, ofEntries_eq_map]
      cases step with
      | key name => exact Entries.lookup_map ofValue entries name
      | index i => rfl

/-- At every place of the document of a value stands the document of what stands there in the
value. -/
lemma at?_ofValue (value : Value) (place : Place) :
    (ofValue value).at? place = (value.at? place).map ofValue := by
  induction place generalizing value with
  | nil => rfl
  | cons step rest ih =>
      rw [at?, Value.at?, child?_ofValue]
      cases value.child? step with
      | none => rfl
      | some inner => exact ih inner

lemma ofNumber_eq_null_iff {n : Reshape.Number} :
    ofNumber n = .null ↔ ∃ x, n = .float x ∧ ¬ x.isFinite := by
  cases n with
  | integer i => simp [ofNumber]
  | float x => cases x <;> simp [ofNumber, Binary64.isFinite]

/-- Null stands for null, and for the floats that are not finite. -/
lemma ofValue_eq_null_iff :
    ofValue value = .null ↔ value = .null ∨ ∃ x, value = .number (.float x) ∧ ¬ x.isFinite := by
  cases value with
  | number n => simp [ofValue, ofNumber_eq_null_iff]
  | _ => simp [ofValue]

/-! ### Floats of documents -/

/-- The floats in the value of a document are finite. -/
lemma isFinite_of_within {json : Json} {x : Binary64}
    (h : (Value.number (.float x)).Within json.toValue) : x.isFinite := by
  induction json using memInd with
  | null | boolean _ | string _ => cases h
  | number n =>
      obtain ⟨r, -, hr⟩ := exists_roundsTo n
      rw [toValue] at h
      generalize n.toNumber = value at h hr
      cases h
      by_contra hx
      have hnull : ofNumber (.float x) = .null := ofNumber_eq_null_iff.mpr ⟨x, rfl, hx⟩
      exact absurd (hr.symm.trans hnull) (by simp)
  | array items ih =>
      rw [toValue, toValues_eq_map] at h
      cases h with
      | item hm hw =>
          obtain ⟨item, hi, rfl⟩ := List.mem_map.mp hm
          exact ih item hi hw
  | object entries ih =>
      rw [toValue, toEntries_eq_map] at h
      cases h with
      | entry hm hw =>
          obtain ⟨entry, he, rfl⟩ := List.mem_map.mp hm
          exact ih entry he hw

end Json

/-! ### Numerals of texts -/

/-- One of the lexemes of the text is a numeral that is too large for a double. -/
def HasHugeNumeral (text : String) : Prop :=
  ∃ pieces, Piece.IsCut pieces ∧ Piece.texts pieces = text.toList
    ∧ ∃ piece ∈ pieces, ∃ n : Numeral, n.IsLegible ∧ n.IsSpelledBy piece.lexeme ∧ n.IsHuge

variable {text key : String} {program : Program} {plan : Plan}

/-- A float that a program of a text writes is finite or infinite, the latter because of a numeral
that is too large. -/
lemma isFinite_or_huge_of_hasLiteral (h : Program.ofText text = .ok program) {x : Binary64}
    (hl : program.HasLiteral (.number (.float x))) :
    x.isFinite ∨ x = .infinity false ∧ HasHugeNumeral text := by
  obtain ⟨segments, last, key, constant, hp, hlast, hf, hv⟩ := hl
  obtain rfl : constant = .number (.float x) := by
    cases constant with
    | number n => exact congrArg Constant.number (Value.number.inj hv).symm
    | word text => cases hv
  have hs : last ∈ program.segments := mem_segments hp (List.mem_of_getLast? hlast)
  obtain ⟨pieces, hc, ht, piece, hm, n, hn, hd, he⟩ := exists_numeral_of_number h hs hf
  rcases n.toNumber_huge_cases with ⟨hh, hi⟩ | ⟨-, hfin⟩
  · exact .inr ⟨Number.float.inj (he.trans hi), pieces, hc, ht, piece, hm, n, hn, hd, hh⟩
  · exact .inl (hfin x he.symm)

/-- A float in the output for a document is finite or infinite, the latter because of a numeral of
the text that is too large. -/
lemma isFinite_or_huge (h : Plan.ofText text = .ok plan) (input : Json) {x : Binary64}
    (hw : (Value.number (.float x)).Within (plan.run input.toValue)) :
    x.isFinite ∨ x = .infinity false ∧ HasHugeNumeral text := by
  obtain ⟨program, hp, ho⟩ := bind_eq_ok_iff.mp h
  obtain ⟨ha, rfl⟩ := ofProgram_eq_ok_iff.mp ho
  -- a scalar of the output is one of the document, or a constant of the program
  have hm : (program.plan.run input.toValue).MadeOf
      (fun scalar => ∀ x, scalar = .number (.float x) →
        x.isFinite ∨ x = .infinity false ∧ HasHugeNumeral text) (fun _ => True) := by
    refine madeOf_run ha ?_ ⟨fun _ _ => trivial, trivial⟩ ⟨?_, fun _ => trivial⟩
    · rintro _ hl x rfl
      exact isFinite_or_huge_of_hasLiteral hp hl
    · rintro _ - hi x rfl
      exact .inl (Json.isFinite_of_within hi)
  have hs : (Value.number (.float x)).IsScalar := trivial
  exact hm.scalar hs hw x rfl

/-- The document of the output is null where the output is null or the positive infinity. -/
lemma at?_runJson_eq_null_iff (h : Plan.ofText text = .ok plan) (input : Json) (place : Place) :
    (plan.runJson input).at? place = some .null ↔
      (plan.run input.toValue).at? place = some .null
      ∨ (plan.run input.toValue).at? place = some (.number (.float (.infinity false))) := by
  rw [Plan.runJson, Json.at?_ofValue, Option.map_eq_some_iff]
  refine ⟨?_, ?_⟩
  · rintro ⟨inner, hi, hn⟩
    rcases Json.ofValue_eq_null_iff.mp hn with rfl | ⟨x, rfl, hx⟩
    · exact .inl hi
    · rcases isFinite_or_huge h input (Value.within_of_at? hi) with hf | ⟨rfl, -⟩
      · exact absurd hf hx
      · exact .inr hi
  · rintro (hi | hi)
    · exact ⟨_, hi, rfl⟩
    · exact ⟨_, hi, rfl⟩

/-! ### Constants -/

/-- The pieces of a key and a numeral with a colon between them. -/
def constantPieces (key : String) (n : Numeral) (digits : List Char) : List Piece :=
  [⟨[], key.toList, .identifier key⟩, ⟨[], [':'], .colon⟩, ⟨[], digits, .number n.toNumber⟩]

section Constant

variable {n : Numeral} {digits : List Char}

lemma texts_constantPieces (key : String) (n : Numeral) (digits : List Char) :
    Piece.texts (constantPieces key n digits) ++ [] =
      (key ++ ":" ++ String.ofList digits).toList := by
  simp [constantPieces, Piece.texts]

/-- A key and a numeral are cut at the colon between them. -/
lemma isCut_constantPieces (hk : IsWord key) (hn : n.IsLegible) (hd : n.IsSpelledBy digits) :
    Piece.IsCut (constantPieces key n digits ++ [⟨[], [], .endOfInput⟩]) := by
  have hnone : ∀ c ∈ ([] : List Char), isBlank c := by simp
  have hname : Token.Kind.LexemeIs (.identifier key) key.toList
      (key.toList ++ ':' :: (digits ++ [])) := Token.Kind.lexemeIs_identifier hk (by simp)
  have hcolon : Token.Kind.LexemeIs .colon [':'] ([':'] ++ (digits ++ [])) :=
    Token.Kind.lexemeIs_punctuation rfl (digits ++ [])
  obtain ⟨hi, hil⟩ := lexemeIs_iff.mp hname
  obtain ⟨hc, hcl⟩ := lexemeIs_iff.mp hcolon
  have hdl : IsLongest digits (digits ++ []) := by
    -- the text ends behind the digits
    intro more kind hlt hp
    have hle := hp.length_le
    rw [List.append_nil] at hle
    omega
  exact .cons hnone hi hil (.cons hnone hc hcl
    (.cons hnone (isLexeme_number_iff.mpr ⟨n, hn, hd, rfl⟩) hdl (.finish hnone)))

/-- The plan of a key and a numeral. -/
lemma ofText_constant (hk : IsWord key) (hn : n.IsLegible) (hd : n.IsSpelledBy digits) :
    Plan.ofText (key ++ ":" ++ String.ofList digits) =
      .ok (.single ⟨[key], .constant (.number n.toNumber)⟩) := by
  have hbody : Token.IsBody (key ++ ":" ++ String.ofList digits) _ := isBody_iff.mpr
    ⟨_, [], isCut_constantPieces hk hn hd, texts_constantPieces key n digits, rfl⟩
  have hp : Program.ofText (key ++ ":" ++ String.ofList digits) =
      .ok ⟨[.value [⟨.constant key (.number n.toNumber), 0⟩]]⟩ :=
    ofText_eq_ok_iff.mpr ⟨_, hbody, .last (.number key n.toNumber 0 _ _ .nil)⟩
  exact bind_eq_ok_iff.mpr ⟨_, hp, rfl⟩

/-- The text of a key and a numeral has a numeral that is too large if it is that one. -/
lemma hasHugeNumeral_constant_iff (hk : IsWord key) (hn : n.IsLegible)
    (hd : n.IsSpelledBy digits) :
    HasHugeNumeral (key ++ ":" ++ String.ofList digits) ↔ n.IsHuge := by
  have hc := isCut_constantPieces hk hn hd
  have ht : Piece.texts (constantPieces key n digits ++ [⟨[], [], .endOfInput⟩]) =
      (key ++ ":" ++ String.ofList digits).toList := by
    rw [Piece.texts_append, Piece.texts_finish, texts_constantPieces]
  refine ⟨?_, fun hh => ⟨_, hc, ht, ⟨[], digits, .number n.toNumber⟩, ?_, n, hn, hd, hh⟩⟩
  · rintro ⟨pieces, hp, hx, piece, hm, m, hml, hms, hh⟩
    -- the text has no other cut, and only one of these pieces is a numeral
    obtain rfl := hp.eq_of_texts_eq hc (hx.trans ht.symm)
    have hl := isLexeme_number_iff.mpr ⟨m, hml, hms, rfl⟩
    have hkind : piece.kind ≠ .endOfInput → piece.kind = .number m.toNumber :=
      fun he => (hc.isLexeme_of_mem hm he).kind_eq hl
    obtain rfl | rfl | rfl | rfl := by simpa [constantPieces] using hm
    · exact absurd (hkind (by simp)) (by simp)
    · exact absurd (hkind (by simp)) (by simp)
    · rwa [← Numeral.ofText_eq hn hd, Numeral.ofText_eq hml hms]
    · exact absurd rfl hl.ne_nil
  · simp [constantPieces]

/-- The document of what a numeral spells is null if the numeral is too large. -/
lemma ofNumber_eq_null_iff_isHuge : Json.ofNumber n.toNumber = .null ↔ n.IsHuge := by
  rw [Json.ofNumber_eq_null_iff]
  rcases n.toNumber_huge_cases with ⟨hh, hi⟩ | ⟨hh, hfin⟩
  · exact iff_of_true ⟨.infinity false, hi, by decide⟩ hh
  · refine iff_of_false ?_ hh
    rintro ⟨x, hx, hn⟩
    exact hn (hfin x hx)

/-- The numeral of a power of ten. -/
def powerOfTen (zeros : Nat) : Numeral :=
  ⟨'1' :: List.replicate zeros '0', []⟩

lemma isLegible_powerOfTen (zeros : Nat) : (powerOfTen zeros).IsLegible where
  whole_ne_nil := List.cons_ne_nil _ _
  whole := List.forall_mem_cons.mpr ⟨rfl, fun _ hc => Numeral.isDigit_of_mem_replicate_zero hc⟩
  fraction := by simp [powerOfTen]

/-- The least power of ten that is too large. -/
lemma isHuge_powerOfTen : (powerOfTen 309).IsHuge :=
  Numeral.isHuge_iff.mpr (by decide +kernel)

end Constant

/-- **Null stands for null, or for a numeral that is too large.** Take the output of the plan of a
text for a document. All of its floats are finite, but for the positive infinity, and that one only
if the text has a numeral at least half a step above the largest double. The document of the output
is null exactly where the output is null or that infinity; so without such a numeral, it is null
exactly where the output is. A key and a numeral give the number that the numeral spells, and null
exactly if the numeral is too large. -/
theorem finite_or_huge :
    (∀ text plan, Plan.ofText text = .ok plan → ∀ input : Json,
      (∀ x, (Value.number (.float x)).Within (plan.run input.toValue) →
        x.isFinite ∨ x = .infinity false ∧ HasHugeNumeral text)
      ∧ (∀ place, (plan.runJson input).at? place = some .null ↔
        (plan.run input.toValue).at? place = some .null
        ∨ (plan.run input.toValue).at? place = some (.number (.float (.infinity false))))
      ∧ (¬ HasHugeNumeral text → ∀ place, (plan.runJson input).at? place = some .null ↔
        (plan.run input.toValue).at? place = some .null))
    ∧ ∀ key (n : Numeral) digits, IsWord key → n.IsLegible → n.IsSpelledBy digits →
      ∃ plan, Plan.ofText (key ++ ":" ++ String.ofList digits) = .ok plan
        ∧ ∀ input, plan.runJson input = .object [(key, .ofNumber (.ofText digits))]
          ∧ (plan.runJson input = .object [(key, .null)] ↔ n.IsHuge) := by
  refine ⟨fun text plan h input => ⟨fun x => isFinite_or_huge h input,
    at?_runJson_eq_null_iff h input, fun hh place => ?_⟩, fun key n digits hk hn hd => ?_⟩
  · rw [at?_runJson_eq_null_iff h input place, or_iff_left]
    intro hi
    rcases isFinite_or_huge h input (Value.within_of_at? hi) with hf | ⟨-, hx⟩
    · exact absurd hf (by decide)
    · exact hh hx
  · have ht : Number.ofText digits = n.toNumber := by rw [Number.ofText, Numeral.ofText_eq hn hd]
    have hr : ∀ input, (Plan.single ⟨[key], .constant (.number n.toNumber)⟩).runJson input =
      .object [(key, .ofNumber n.toNumber)] := fun _ => rfl
    refine ⟨_, ofText_constant hk hn hd, fun input => ⟨by rw [ht, hr], ?_⟩⟩
    rw [hr, ← ofNumber_eq_null_iff_isHuge]
    simp

/-- One under a key, and then a power of ten that is too large. -/
theorem finite_or_huge_one :
    Plan.ofText "k:1" = .ok (.single ⟨["k"], .constant (.number (.integer 1))⟩)
    ∧ ¬ HasHugeNumeral "k:1"
    ∧ (∀ place, ((Plan.single ⟨["k"], .constant (.number (.integer 1))⟩).runJson .null).at? place =
        some .null ↔
      ((Plan.single ⟨["k"], .constant (.number (.integer 1))⟩).run .null).at? place = some .null)
    ∧ (powerOfTen 309).IsHuge
    ∧ ∃ plan, Plan.ofText ("k" ++ ":" ++ String.ofList (powerOfTen 309).whole) = .ok plan
      ∧ plan.runJson .null = .object [("k", .null)] := by
  have hk : IsWord "k" := ⟨'k', [], rfl, rfl, by simp⟩
  have hn := isLegible_powerOfTen 0
  have ht : "k" ++ ":" ++ String.ofList (powerOfTen 0).whole = "k:1" := rfl
  have hp : Plan.ofText "k:1" = .ok (.single ⟨["k"], .constant (.number (.integer 1))⟩) :=
    ht ▸ ofText_constant hk hn (.inr ⟨rfl, rfl⟩)
  have hh : ¬ HasHugeNumeral "k:1" := by
    rw [← ht, hasHugeNumeral_constant_iff hk hn (.inr ⟨rfl, rfl⟩), Numeral.isHuge_iff]
    decide +kernel
  obtain ⟨hfin, hconst⟩ := finite_or_huge
  obtain ⟨plan, ho, hr⟩ := hconst "k" _ _ hk (isLegible_powerOfTen 309) (.inr ⟨rfl, rfl⟩)
  exact ⟨hp, hh, (hfin _ _ hp .null).2.2 hh, isHuge_powerOfTen, plan, ho,
    (hr .null).2.mpr isHuge_powerOfTen⟩

/-- The least power of ten that is too large for a double becomes an infinity, and null in the
document. -/
theorem infinite_literal :
    Plan.ofText ("k" ++ ":" ++ String.ofList ('1' :: List.replicate 309 '0')) =
      .ok (.single ⟨["k"], .constant (.number (.float (.infinity false)))⟩)
    ∧ (Plan.single ⟨["k"], .constant (.number (.float (.infinity false)))⟩).run .null =
      .object [("k", .number (.float (.infinity false)))]
    ∧ (Plan.single ⟨["k"], .constant (.number (.float (.infinity false)))⟩).runJson .null =
      .object [("k", .null)] := by
  have hk : IsWord "k" := ⟨'k', [], rfl, rfl, by simp⟩
  have hp := ofText_constant hk (isLegible_powerOfTen 309) (.inr ⟨rfl, rfl⟩)
  rcases (powerOfTen 309).toNumber_huge_cases with ⟨-, hi⟩ | ⟨hn, -⟩
  · rw [hi] at hp
    exact ⟨hp, rfl, rfl⟩
  · exact absurd isHuge_powerOfTen hn

end Reshape
