import Reshape.Json.Numbers
import Reshape.Plan.OfText
import Reshape.Plan.Run
import Reshape.Proofs.Attempt
import Reshape.Proofs.Json.Unordered
import Reshape.Proofs.Number.Rounding
import Reshape.Proofs.Value.Material

/-!
From values to documents and back, and from documents to values and back.

* `Value.mapNumbers_eq_self` and `Json.mapNumbers_eq_self`: replacing numbers by themselves.
* `Json.toValue_ofValue_eq`: floats that are not finite become null, and nothing else changes.
* `Json.toValue_ofValue`: a value whose floats are all finite is the value of its document.
* `Json.Number.RoundsTo`: the number that is left of a number of a document.
* `Json.exists_ofValue_toValue_eq`: integers of more than 63 bits become doubles, and nothing else
  changes.
* `Json.conversion_laws`: both round trips, and the program that gives back its input.
-/

namespace Reshape

/-! ### Replacing numbers -/

namespace Value

variable {value : Value} {f g : Reshape.Number → Value}

lemma mapNumbers_eq_self (h : ∀ n, (number n).Within value → f n = number n) :
    value.mapNumbers f = value := by
  induction value using memInd with
  | h value hi he =>
      cases value with
      | null | boolean _ | string _ => rfl
      | number n => exact h n .self
      | array items =>
          rw [mapNumbers_array]
          refine congrArg array ?_
          calc items.map (mapNumbers f)
              = items.map id :=
                List.map_congr_left fun item hm => hi item hm fun n hw => h n (.item hm hw)
            _ = items := List.map_id items
      | object entries =>
          rw [mapNumbers_object]
          refine congrArg object ?_
          calc entries.map (fun entry => (entry.1, mapNumbers f entry.2))
              = entries.map id :=
                List.map_congr_left fun entry hm =>
                  congrArg (entry.1, ·) (he entry hm fun n hw => h n (.entry hm hw))
            _ = entries := List.map_id entries

/-- Replacing numbers twice is replacing them by what becomes of their first replacements. -/
lemma mapNumbers_mapNumbers (value : Value) :
    (value.mapNumbers f).mapNumbers g = value.mapNumbers fun n => (f n).mapNumbers g := by
  induction value using memInd with
  | h value hi he =>
      cases value with
      | null | boolean _ | number _ | string _ => rfl
      | array items =>
          simp only [mapNumbers_array, List.map_map]
          exact congrArg array (List.map_congr_left hi)
      | object entries =>
          simp only [mapNumbers_object, List.map_map]
          exact congrArg object
            (List.map_congr_left fun entry hm => congrArg (entry.1, ·) (he entry hm))

end Value

namespace Json

lemma mapNumbers_eq_self {json : Json} {f : Number → Number}
    (h : ∀ n, json.HasNumber n → f n = n) : json.mapNumbers f = json := by
  induction json using memInd with
  | null | boolean _ | string _ => rfl
  | number n => exact congrArg number (h n .number)
  | array items ih =>
      rw [mapNumbers_array]
      refine congrArg array ?_
      calc items.map (mapNumbers f)
          = items.map id :=
            List.map_congr_left fun item hm => ih item hm fun n hn => h n (.item hm hn)
        _ = items := List.map_id items
  | object entries ih =>
      rw [mapNumbers_object]
      refine congrArg object ?_
      calc entries.map (fun entry => (entry.1, mapNumbers f entry.2))
          = entries.map id :=
            List.map_congr_left fun entry hm =>
              congrArg (entry.1, ·) (ih entry hm fun n hn => h n (.entry hm hn))
        _ = entries := List.map_id entries

/-! ### From values -/

lemma toNumber_ofInt64 (value : Int64) : (Number.ofInt64 value).toNumber = .integer value := by
  have hlt : value.toInt < 0x8000000000000000 := Int64.toInt_lt value
  rw [Number.ofInt64, Number.toNumber, if_pos hlt, Int64.ofInt_toInt]

lemma toValue_ofNumber (n : Reshape.Number) : (ofNumber n).toValue = n.orNull := by
  match n with
  | .integer value => rw [ofNumber, toValue, toNumber_ofInt64, Number.orNull]
  | .float (.finite negative magnitude) => rfl
  | .float .nan => rfl
  | .float (.infinity negative) => rfl

/-- Floats that are not finite become null, and nothing else changes. -/
lemma toValue_ofValue_eq (value : Value) :
    (ofValue value).toValue = value.mapNumbers Number.orNull := by
  induction value using Value.memInd with
  | h value hi he =>
      cases value with
      | null | boolean _ | string _ => rfl
      | number n => exact toValue_ofNumber n
      | array items =>
          rw [ofValue, toValue, ofValues_eq_map, toValues_eq_map, List.map_map,
            Value.mapNumbers_array]
          exact congrArg Value.array (List.map_congr_left hi)
      | object entries =>
          rw [ofValue, toValue, ofEntries_eq_map, toEntries_eq_map, List.map_map,
            Value.mapNumbers_object]
          exact congrArg Value.object
            (List.map_congr_left fun entry hm => congrArg (entry.1, ·) (he entry hm))

/-- A value whose floats are all finite is the value of its document. -/
theorem toValue_ofValue {value : Value}
    (h : ∀ x, (Value.number (.float x)).Within value → x.isFinite) :
    (ofValue value).toValue = value := by
  rw [toValue_ofValue_eq]
  refine Value.mapNumbers_eq_self fun n hw => ?_
  cases n with
  | integer value => rfl
  | float x => exact if_pos (h x hw)

/-- What is null in place of a float stays null. -/
lemma mapNumbers_orNull (n : Reshape.Number) : n.orNull.mapNumbers Number.orNull = n.orNull := by
  cases n with
  | integer value => rfl
  | float x =>
      rw [Number.orNull]
      split
      · next hx => exact if_pos hx
      · rfl

/-- The second round trip changes nothing any more. -/
lemma toValue_ofValue_idem (value : Value) :
    (ofValue (ofValue value).toValue).toValue = (ofValue value).toValue := by
  rw [toValue_ofValue_eq (ofValue value).toValue, toValue_ofValue_eq, Value.mapNumbers_mapNumbers]
  exact congrArg (Value.mapNumbers · value) (funext mapNumbers_orNull)

/-! ### From documents -/

/-- A double stays as it is, and so does an integer of at most 63 bits and a sign. Any other integer
becomes the nearest double. -/
inductive Number.RoundsTo : Number → Number → Prop where
  | float (negative : Bool) (magnitude : Magnitude) :
      RoundsTo (.float negative magnitude) (.float negative magnitude)
  | integer {value : Int} {least : -0x8000000000000000 ≤ value}
      {bound : value < 0x10000000000000000} :
      value < 0x8000000000000000 →
      RoundsTo (.integer value least bound) (.integer value least bound)
  | rounded {value : Int} {least : -0x8000000000000000 ≤ value}
      {bound : value < 0x10000000000000000} {magnitude : Magnitude} :
      0x8000000000000000 ≤ value → magnitude.IsNearest (value.natAbs * unitsPerOne) 1 →
      RoundsTo (.integer value least bound) (.float false magnitude)

/-- Only integers of more than 63 bits change. -/
lemma Number.RoundsTo.eq_self {n r : Number} (h : n.RoundsTo r)
    (hn : ∀ value least bound, n = .integer value least bound → value < 0x8000000000000000) :
    r = n := by
  cases h with
  | float _ _ | integer _ => rfl
  | rounded hge _ => exact absurd (hn _ _ _ rfl) (Int.not_lt.mpr hge)

/-- An integer of a document is below the limit of the doubles. -/
lemma natAbs_lt_limit {value : Int} (least : -0x8000000000000000 ≤ value)
    (bound : value < 0x10000000000000000) : value.natAbs < Binary64.limit :=
  Nat.lt_of_lt_of_le (by omega) Binary64.le_limit

lemma exists_roundsTo (n : Number) : ∃ r, n.RoundsTo r ∧ ofNumber n.toNumber = .number r := by
  cases n with
  | float negative magnitude => exact ⟨_, .float negative magnitude, rfl⟩
  | integer value least bound =>
      rw [Number.toNumber]
      split
      · next hlt =>
        refine ⟨_, .integer hlt, ?_⟩
        have hi : (Int64.ofInt value).toInt = value := Int64.toInt_ofInt_of_le least hlt
        simp only [ofNumber, Number.ofInt64, hi]
      · next hge =>
        obtain ⟨m, hm, hn⟩ := Binary64.exists_ofInt_eq_finite (natAbs_lt_limit least bound)
        have hs : decide (value < 0) = false := decide_eq_false (by omega)
        rw [hm, hs]
        exact ⟨_, .rounded (Int.not_lt.mp hge) hn, rfl⟩

/-- Integers of more than 63 bits become doubles, and nothing else changes. -/
lemma exists_ofValue_toValue_eq : ∃ round : Number → Number,
    (∀ n : Number, n.RoundsTo (round n))
    ∧ ∀ json : Json, ofValue json.toValue = json.mapNumbers round := by
  choose round hr hn using exists_roundsTo
  refine ⟨round, hr, fun json => ?_⟩
  induction json using memInd with
  | null | boolean _ | string _ => rfl
  | number n => exact hn n
  | array items ih =>
      rw [toValue, ofValue, toValues_eq_map, ofValues_eq_map, List.map_map, mapNumbers_array]
      exact congrArg array (List.map_congr_left ih)
  | object entries ih =>
      rw [toValue, ofValue, toEntries_eq_map, ofEntries_eq_map, List.map_map, mapNumbers_object]
      exact congrArg object
        (List.map_congr_left fun entry hm => congrArg (entry.1, ·) (ih entry hm))

/-- A document whose integers have at most 63 bits and a sign is the document of its value. -/
lemma ofValue_toValue {json : Json}
    (h : ∀ value least bound, json.HasNumber (.integer value least bound) →
      value < 0x8000000000000000) : ofValue json.toValue = json := by
  obtain ⟨round, hr, hj⟩ := exists_ofValue_toValue_eq
  rw [hj]
  refine mapNumbers_eq_self fun n hn => ?_
  exact (hr n).eq_self fun value least bound he => h value least bound (he ▸ hn)

/-- The program that gives back its input. -/
lemma ofText_input : Plan.ofText "$" = .ok (.single ⟨[], .input⟩) :=
  toOption_eq_some_iff.mp (by decide +kernel)

/-- **Conversions.** From a value to a document and back, null takes the place of every float that
is not finite, and nothing else changes. So a value with finite floats only is the same afterwards,
and doing it twice does nothing more. From a document to a value and back, every integer of more
than 63 bits becomes the nearest double, and nothing else changes. So the program that gives back
its input gives back every document without such integers. -/
theorem conversion_laws :
    (∀ value : Value,
      (ofValue value).toValue = value.mapNumbers Number.orNull
      ∧ ((∀ x, (Value.number (.float x)).Within value → x.isFinite) →
        (ofValue value).toValue = value)
      ∧ (ofValue (ofValue value).toValue).toValue = (ofValue value).toValue)
    ∧ (∃ round : Number → Number, (∀ n : Number, n.RoundsTo (round n))
      ∧ ∀ json : Json, ofValue json.toValue = json.mapNumbers round)
    ∧ ∃ plan, Plan.ofText "$" = .ok plan
      ∧ ∀ json : Json, (∀ value least bound, json.HasNumber (.integer value least bound) →
          value < 0x8000000000000000) → plan.runJson json = json := by
  refine ⟨fun value => ⟨toValue_ofValue_eq value, toValue_ofValue, toValue_ofValue_idem value⟩,
    exists_ofValue_toValue_eq, _, ofText_input, fun json h => ?_⟩
  exact ofValue_toValue h

/-- A negative zero next to an integer, both as a value and as a document. -/
theorem conversion_laws_zeros :
    (∀ x, (Value.number (.float x)).Within
      (.array [.number (.float (.zero true)), .number (.integer 99)]) → x.isFinite)
    ∧ (ofValue (.array [.number (.float (.zero true)), .number (.integer 99)])).toValue =
      .array [.number (.float (.zero true)), .number (.integer 99)]
    ∧ ∃ plan, Plan.ofText "$" = .ok plan
      ∧ plan.runJson
          (.object [("a", .number (.float true .zero)), ("b", .number (.ofInt64 (-1)))]) =
        .object [("a", .number (.float true .zero)), ("b", .number (.ofInt64 (-1)))] := by
  have hv : ∀ x, (Value.number (.float x)).Within
      (.array [.number (.float (.zero true)), .number (.integer 99)]) → x.isFinite := by
    rintro x (_ | ⟨hm, hw⟩)
    obtain rfl | rfl := by simpa using hm
    · cases hw
      rfl
    · cases hw
  have hj : ∀ value least bound, HasNumber (.integer value least bound)
      (.object [("a", .number (.float true .zero)), ("b", .number (.ofInt64 (-1)))]) →
      value < 0x8000000000000000 := by
    rintro value least bound (_ | _ | ⟨hm, hn⟩)
    obtain rfl | rfl := by simpa using hm
    · cases hn
    · cases hn
      decide
  obtain ⟨hc, -, plan, hp, hr⟩ := conversion_laws
  exact ⟨hv, (hc _).2.1 hv, plan, hp, hr _ hj⟩

end Json

end Reshape
