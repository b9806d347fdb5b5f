import Rivulet.Proofs.Json.RoundTrip
import Rivulet.Query.Options

/-!
# Options come back from their stored form

The stored form is the text of an object with three fields. Whatever the variable is called, it is
read again, and so is the flag. The timeout comes back in whole milliseconds: a shorter one than a
millisecond is stored as none, and with it data loading is off.
-/

namespace Rivulet.Query.Options

/-- The value whose text is the stored form. -/
def json (o : Options) : Json :=
  .obj [("ssr_timeout_ms", .int o.storedTimeout), ("payload_var", .str o.variableName),
    ("include_payload", .bool o.includePayload)]

theorem print_eq (o : Options) : o.print = o.json.print := by
  have htimeout : "\x7b\"ssr_timeout_ms\":".toList =
      '\x7b' :: (Json.printString "ssr_timeout_ms" ++ [':']) := by decide +kernel
  have hname : ",\"payload_var\":".toList = ',' :: (Json.printString "payload_var" ++ [':']) := by
    decide +kernel
  have hflag : ",\"include_payload\":".toList =
      ',' :: (Json.printString "include_payload" ++ [':']) := by decide +kernel
  have hobj (fields : List (String × Json)) :
      (Json.obj fields).print = '\x7b' :: Json.printFields fields := by rw [Json.print]
  have hint (n : Int) : (Json.int n).print = Json.printInt n := by rw [Json.print]
  have hstr (s : String) : (Json.str s).print = Json.printString s := by rw [Json.print]
  unfold print json
  simp only [htimeout, hname, hflag, hobj, hint, hstr, Json.printFields, Json.printMoreFields,
    List.cons_append, List.append_assoc, List.nil_append]

/-- The stored milliseconds are of 64 bits. -/
theorem inRange_storedTimeout (o : Options) : Json.InRange o.storedTimeout := by
  have hlt : o.storedTimeout < 0x10000000000000000 := Nat.mod_lt _ (by decide)
  unfold Json.InRange
  omega

/-- What is written for options is read field by field. -/
theorem ofRaw?_raw (o : Options) :
    ofRaw? (o.json.raw id) = some { o with timeout := milliseconds o.storedTimeout } := by
  have hpieces (s : String) := Json.pieceText?_spelled Json.respells_id s
  have hdigits : Json.Digits.int? ⟨decide ((o.storedTimeout : Int) < 0),
      Nat.toDigits 10 o.storedTimeout, none, none⟩ = some o.storedTimeout :=
    Json.int?_digits o.inRange_storedTimeout
  simp [ofRaw?, json, Json.raw, Json.rawFields, hpieces, Field.all, setNamed, Field.name, setField,
    hdigits]

/-- Options come back from their stored form with the milliseconds that were stored. -/
theorem parse?_print (o : Options) : parse? (String.ofList o.print) =
    some { o with timeout := milliseconds o.storedTimeout } := by
  have hwhole : o.json.isWhole := by simp [json, Json.isWhole, Json.isWholeFields]
  have hread := Json.read?_print Json.respells_id hwhole
  rw [id] at hread
  rw [parse?, String.toList_ofList, print_eq, hread, Option.bind_some, ofRaw?_raw]

/-- Timeouts that are counted in 64 bits of milliseconds lose what is finer than a millisecond. -/
theorem storedTimeout_of_lt {o : Options} (h : o.timeout < milliseconds 0x10000000000000000) :
    o.storedTimeout = o.timeout / milliseconds 1 := by
  unfold milliseconds at h
  exact Nat.mod_eq_of_lt (by omega)

/-- Options come back from their stored form, with the variable and the flag that they had. A
timeout of less than 2⁶⁴ milliseconds comes back in whole milliseconds, and then data loading is off
exactly when the timeout was shorter than a millisecond. -/
theorem restored_in_milliseconds (o : Options) :
    ∃ r, parse? (String.ofList o.print) = some r ∧ r.variableName = o.variableName ∧
      r.includePayload = o.includePayload ∧
      (o.timeout < milliseconds 0x10000000000000000 →
        r.timeout = milliseconds (o.timeout / milliseconds 1) ∧
          (r.timeout = 0 ↔ o.timeout < milliseconds 1)) := by
  refine ⟨_, o.parse?_print, rfl, rfl, fun h => ?_⟩
  rw [storedTimeout_of_lt h]
  refine ⟨rfl, ?_⟩
  simp only [milliseconds]
  omega

/-- A name that has to be escaped comes back, and of almost two milliseconds one is left. -/
theorem restored_in_milliseconds_escaped :
    let o : Options := ⟨microseconds 1999, "a\"\\\n\u0001é", false⟩
    o.timeout < milliseconds 0x10000000000000000 ∧
      ∃ r, parse? (String.ofList o.print) = some r ∧ r.variableName = o.variableName ∧
        r.includePayload = false ∧ r.timeout = milliseconds 1 := by
  intro o
  have hlt : o.timeout < milliseconds 0x10000000000000000 := by decide
  have hone : o.timeout / milliseconds 1 = 1 := by decide
  obtain ⟨r, hread, hname, hflag, htimeout⟩ := restored_in_milliseconds o
  refine ⟨hlt, r, hread, hname, hflag, ?_⟩
  rw [(htimeout hlt).1, hone]

/-- Options that come back with the timeout in whole milliseconds, and with data loading off exactly
when it was off before. -/
def Survives (o : Options) : Prop :=
  ∃ r, parse? (String.ofList o.print) = some r ∧ r.variableName = o.variableName ∧
    r.includePayload = o.includePayload ∧ r.timeout = milliseconds (o.timeout / milliseconds 1) ∧
      (r.timeout = 0 ↔ o.timeout = 0)

/-- Half a millisecond is stored as none, which switches data loading off; and so is the shortest
timeout whose milliseconds do not fit into 64 bits. -/
theorem not_survives :
    ¬Survives ⟨microseconds 500, "data", true⟩ ∧
      ¬Survives ⟨milliseconds 0x10000000000000000, "data", true⟩ := by
  constructor
  · rintro ⟨r, hread, -, -, -, hoff⟩
    rw [parse?_print] at hread
    obtain rfl := Option.some.inj hread
    exact absurd (hoff.1 (by decide)) (by decide)
  · rintro ⟨r, hread, -, -, htimeout, -⟩
    rw [parse?_print] at hread
    obtain rfl := Option.some.inj hread
    exact absurd htimeout (by decide)

end Rivulet.Query.Options
