import BootConfig.Proofs.Json.Written
import BootConfig.Proofs.Steps

/-!
# The output read back

The text of a tree is one JSON value in front of a final newline, and that value is the image of the
tree.
-/

namespace BootConfig.Json

/-! ## Spaces -/

theorem skipSpace_of_not {c : Char} (h : isSpace c = false) (cs : List Char) :
    skipSpace (c :: cs) = c :: cs := by
  simp [skipSpace, h]

theorem skipSpace_newline (level : Nat) (cs : List Char) :
    skipSpace (newline level cs) = skipSpace cs := by
  have hs : ∀ c ∈ '\n' :: List.replicate (2 * level) ' ', isSpace c = true := by
    intro c hc
    rcases List.mem_cons.mp hc with rfl | hc
    · rfl
    · obtain ⟨_, rfl⟩ := List.mem_replicate.mp hc; rfl
  change ('\n' :: List.replicate (2 * level) ' ' ++ cs).dropWhile isSpace = cs.dropWhile isSpace
  exact List.dropWhile_append_of_pos hs

theorem skipSpace_blank (cs : List Char) : skipSpace (' ' :: cs) = skipSpace cs := rfl

theorem isSpace_of_startsValue {c : Char} (h : startsValue c = true) : isSpace c = false := by
  cases hs : isSpace c with
  | false => rfl
  | true =>
      simp only [isSpace, Bool.or_eq_true, beq_iff_eq] at hs
      rcases hs with ((rfl | rfl) | rfl) | rfl <;> cases h

theorem skipSpace_write (level : Nat) (t : Tree) (tail : List Char) :
    skipSpace (write level t tail) = write level t tail := by
  obtain ⟨c, cs, h, hc⟩ := write_starts level t tail
  rw [h, skipSpace_of_not (isSpace_of_startsValue hc)]

theorem readValue_newline (fuel level : Nat) (cs : List Char) :
    readValue fuel (newline level cs) = readValue fuel cs := by
  cases fuel with
  | zero => rfl
  | succ fuel => simp only [readValue, skipSpace_newline]

/-! ## Numbers -/

/-- The characters that a number begins with. -/
def startsNumber (c : Char) : Bool := c == '-' || c.isDigit

theorem readValue_number {c : Char} (h : startsNumber c = true) (fuel : Nat) (cs : List Char) :
    readValue (fuel + 1) (c :: cs) = readNumber? (c :: cs) := by
  have hs : isSpace c = false := isSpace_of_startsValue (by
    simp only [startsNumber, Bool.or_eq_true] at h
    simp only [startsValue, Bool.or_eq_true]
    rcases h with h | h <;> simp [h])
  have hne : c ≠ 'n' ∧ c ≠ 't' ∧ c ≠ 'f' ∧ c ≠ '"' ∧ c ≠ '[' ∧ c ≠ '{' := by
    refine ⟨?_, ?_, ?_, ?_, ?_, ?_⟩ <;> (rintro rfl; cases h)
  unfold readValue
  rw [skipSpace_of_not hs]
  split <;> simp_all

theorem startsNumber_of_digits {ds : List Char} (h : Double.IsDigits ds) (tail : List Char) :
    ∃ c cs, ds ++ tail = c :: cs ∧ startsNumber c = true := by
  cases ds with
  | nil => exact absurd rfl h.ne_nil
  | cons d ds => exact ⟨d, _, rfl, by simp only [startsNumber, h.digit d (by simp), Bool.or_true]⟩

theorem startsNumber_intText (n : Int) (tail : List Char) :
    ∃ c cs, (intText n).toList ++ tail = c :: cs ∧ startsNumber c = true := by
  rw [toList_intText]
  split
  · exact ⟨_, _, rfl, rfl⟩
  · exact startsNumber_of_digits (.of_toDigits _) tail

theorem Spelling.startsNumber {cs : List Char} (h : Double.Spelling cs) (tail : List Char) :
    ∃ d ds, cs ++ tail = d :: ds ∧ startsNumber d = true := by
  cases h with
  | fraction hw _ => rw [List.append_assoc]; exact startsNumber_of_digits hw.toIsDigits _
  | exponent hw _ _ => rw [List.append_assoc]; exact startsNumber_of_digits hw.toIsDigits _
  | both hw _ _ _ => rw [List.append_assoc]; exact startsNumber_of_digits hw.toIsDigits _

theorem startsNumber_text {x : Double} (hx : x.isFinite = true) (tail : List Char) :
    ∃ c cs, x.text.toList ++ tail = c :: cs ∧ startsNumber c = true := by
  cases x with
  | nan => cases hx
  | infinite _ => cases hx
  | finite negative significand exponent =>
      rw [Double.toList_text]
      split
      · exact ⟨_, _, rfl, rfl⟩
      · exact Spelling.startsNumber (Double.spelling_unsignedText significand exponent) tail

/-! ## One item and one member -/

section Step

variable {level fuel : Nat} {cs more : List Char} {value : Value}

theorem readItems_last {outer : Nat} {tail : List Char}
    (h : readValue fuel cs = some (value, newline outer (']' :: tail))) :
    readItems (fuel + 1) (newline level cs) = some ([value], tail) := by
  simp only [readItems, readValue_newline, h, skipSpace_newline, skipSpace_of_not (c := ']') rfl,
    Option.bind_eq_bind, Option.bind_some, Option.pure_def]

theorem readItems_comma {values : List Value} {rest : List Char}
    (h : readValue fuel cs = some (value, ',' :: more))
    (hm : readItems fuel more = some (values, rest)) :
    readItems (fuel + 1) (newline level cs) = some (value :: values, rest) := by
  simp only [readItems, readValue_newline, h, hm, skipSpace_of_not (c := ',') rfl,
    Option.bind_eq_bind, Option.bind_some, Option.pure_def]

/-- The member with a name, whose value begins behind a colon and a space. -/
def member (level : Nat) (name : String) (cs : List Char) : List Char :=
  newline level (writeString name (':' :: ' ' :: cs))

theorem readValue_blank : readValue fuel (' ' :: cs) = readValue fuel cs := by
  cases fuel with
  | zero => rfl
  | succ fuel => simp only [readValue, skipSpace_blank]

theorem readMembers_last {outer : Nat} {tail : List Char} (name : String)
    (h : readValue fuel cs = some (value, newline outer ('}' :: tail))) :
    readMembers (fuel + 1) (member level name cs) = some ([(name, value)], tail) := by
  simp only [member, writeString, readMembers, skipSpace_newline, skipSpace_of_not (c := '"') rfl,
    readString?_written, skipSpace_of_not (c := ':') rfl, readValue_blank, h,
    skipSpace_of_not (c := '}') rfl, Option.bind_eq_bind,
    Option.bind_some, Option.pure_def]

theorem readMembers_comma {members : Members} {rest : List Char} (name : String)
    (h : readValue fuel cs = some (value, ',' :: more))
    (hm : readMembers fuel more = some (members, rest)) :
    readMembers (fuel + 1) (member level name cs) = some ((name, value) :: members, rest) := by
  simp only [member, writeString, readMembers, skipSpace_newline, skipSpace_of_not (c := '"') rfl,
    readString?_written, skipSpace_of_not (c := ':') rfl, readValue_blank, h, hm,
    skipSpace_of_not (c := ',') rfl, Option.bind_eq_bind,
    Option.bind_some, Option.pure_def]

theorem length_member (level : Nat) (name : String) (cs : List Char) :
    cs.length + 5 ≤ (member level name cs).length := by
  simp only [member, newline, writeString, List.length_cons, List.length_append,
    List.length_replicate]
  omega

theorem readValue_object {name : String} {members : Members} {rest : List Char}
    (h : readMembers fuel (member level name cs) = some (members, rest)) :
    readValue (fuel + 1) ('{' :: member level name cs) = some (.object members, rest) := by
  simp only [readValue, skipSpace_of_not (c := '{') rfl, h, Option.map_some]
  simp only [member, writeString, skipSpace_newline, skipSpace_of_not (c := '"') rfl]
  rfl

end Step

/-! ## Trees -/

theorem readValue_array {level fuel : Nat} {t : Tree} {more rest : List Char} {values : List Value}
    (h : readItems fuel (newline level (write level t more)) = some (values, rest)) :
    readValue (fuel + 1) ('[' :: newline level (write level t more)) =
      some (.array values, rest) := by
  obtain ⟨c, cs, hw, hc⟩ := write_starts level t more
  have hne : c ≠ ']' := by rintro rfl; cases hc
  simp only [readValue, skipSpace_of_not (c := '[') rfl, skipSpace_newline, skipSpace_write]
  rw [h, hw]
  split
  · rename_i heq
    exact absurd (List.cons.inj heq).1 hne
  · rfl

theorem keyFault?_cons {k v : Tree} {es : Entries} (h : keyFaultEntries? ((k, v) :: es) = none) :
    keyFault? v = none ∧ keyFaultEntries? es = none := by
  simp only [keyFaultEntries?] at h
  split at h
  · cases h
  · simpa only [Option.or_eq_none_iff] using h

theorem keyFaultItems?_cons {t : Tree} {ts : List Tree} (h : keyFaultItems? (t :: ts) = none) :
    keyFault? t = none ∧ keyFaultItems? ts = none := by
  simpa only [keyFaultItems?, Option.or_eq_none_iff] using h

theorem length_newline (level : Nat) (cs : List Char) :
    cs.length + 1 ≤ (newline level cs).length := by
  simp only [newline, List.length_cons, List.length_append]
  omega

mutual

theorem readValue_write (level : Nat) : (t : Tree) → (fuel : Nat) → (tail : List Char) →
    keyFault? t = none → Delimited tail → 2 * (write level t tail).length ≤ fuel →
    readValue fuel (write level t tail) = some (image t, tail)
  | t, 0, tail, _, _, hf => by
      have := length_lt_write level t tail
      omega
  | .null, fuel + 1, tail, _, _, _ => rfl
  | .bool b, fuel + 1, tail, _, _, _ => by cases b <;> rfl
  | .int n, fuel + 1, tail, _, ht, _ => by
      obtain ⟨c, cs, h, hc⟩ := startsNumber_intText n tail
      have hr := readNumber?_intText n ht
      simp only [write, image]
      rw [h] at hr ⊢
      rw [readValue_number hc, hr]
  | .float x, fuel + 1, tail, _, ht, _ => by
      simp only [write, image]
      split
      · rename_i hx
        obtain ⟨c, cs, h, hc⟩ := startsNumber_text hx tail
        have hr := readNumber?_text hx ht
        rw [h] at hr ⊢
        rw [readValue_number hc, hr]
      · rfl
  | .str text, fuel + 1, tail, _, _, _ => by
      simp only [write, image, writeString, readValue, skipSpace_of_not (c := '"') rfl,
        readString?_written, Option.map_some]
  | .seq [], fuel + 1, tail, _, _, _ => rfl
  | .seq (t :: ts), fuel + 1, tail, hk, _, hf =>
      readValue_array (readItems_write (level + 1) level (t :: ts) fuel tail hk (by simp) (by
        simp only [write, List.length_cons] at hf
        simp only [writeItems, List.tail_cons]
        omega))
  | .map [], fuel + 1, tail, _, _, _ => rfl
  | .map ((k, v) :: es), fuel + 1, tail, hk, _, hf =>
      readValue_object
        (readMembers_write (level + 1) level ((k, v) :: es) fuel tail hk (by simp) (by
          simp only [write, List.length_cons] at hf
          simp only [writeEntries, List.tail_cons]
          omega))
  | .tagged name value, fuel + 1, tail, hk, _, hf => by
      have hl := length_member (level + 1) (tagMember name)
        (write (level + 1) value (newline level ('}' :: tail)))
      have hw : 2 * (write (level + 1) value (newline level ('}' :: tail))).length + 11 ≤
          fuel + 1 := by
        simp only [write, List.length_cons] at hf
        simp only [member] at hl
        omega
      -- the object takes a step more than its only member
      obtain ⟨fuel, rfl⟩ : ∃ n, fuel = n + 1 := ⟨fuel - 1, by omega⟩
      have hv := readValue_write (level + 1) value fuel (newline level ('}' :: tail)) hk
        (delimited_newline _ _) (by omega)
      exact readValue_object (readMembers_last (tagMember name) hv)

/-- The items of a list that is not empty, without the comma in front of the first. -/
theorem readItems_write (level outer : Nat) : (ts : List Tree) → (fuel : Nat) → (tail : List Char) →
    keyFaultItems? ts = none → ts ≠ [] →
    2 * (writeItems level ts (newline outer (']' :: tail))).tail.length + 1 ≤ fuel →
    readItems fuel (writeItems level ts (newline outer (']' :: tail))).tail =
      some (imageItems ts, tail)
  | [], _, _, _, hne, _ => absurd rfl hne
  | t :: ts, 0, _, _, _, hf => by omega
  | [t], fuel + 1, tail, hk, _, hf => by
      simp only [writeItems, List.tail_cons] at hf ⊢
      have hl := length_newline level (write level t (newline outer (']' :: tail)))
      exact readItems_last (readValue_write level t fuel _ (keyFaultItems?_cons hk).1
        (delimited_newline _ _) (by omega))
  | t :: t' :: ts, fuel + 1, tail, hk, _, hf => by
      simp only [writeItems, List.tail_cons] at hf
      have hl := length_newline level
        (write level t (writeItems level (t' :: ts) (newline outer (']' :: tail))))
      have hw := length_lt_write level t (writeItems level (t' :: ts) (newline outer (']' :: tail)))
      have hi :=
        readItems_write level outer (t' :: ts) fuel tail (keyFaultItems?_cons hk).2 (by simp) (by
          simp only [writeItems, List.tail_cons, List.length_cons] at hl hw ⊢
          omega)
      simp only [writeItems, List.tail_cons] at hi hl hf ⊢
      exact readItems_comma
        (readValue_write level t fuel _ (keyFaultItems?_cons hk).1 (.comma _) (by omega)) hi

/-- The members of a mapping that is not empty, without the comma in front of the first. -/
theorem readMembers_write (level outer : Nat) : (es : Entries) → (fuel : Nat) → (tail : List Char) →
    keyFaultEntries? es = none → es ≠ [] →
    2 * (writeEntries level es (newline outer ('}' :: tail))).tail.length + 1 ≤ fuel →
    readMembers fuel (writeEntries level es (newline outer ('}' :: tail))).tail =
      some (imageEntries es, tail)
  | [], _, _, _, hne, _ => absurd rfl hne
  | (k, v) :: es, 0, _, _, _, hf => by omega
  | [(k, v)], fuel + 1, tail, hk, _, hf => by
      simp only [writeEntries, List.tail_cons] at hf ⊢
      have hl := length_member level (nameOf k) (write level v (newline outer ('}' :: tail)))
      simp only [member] at hl
      exact readMembers_last _
        (readValue_write level v fuel _ (keyFault?_cons hk).1 (delimited_newline _ _) (by omega))
  | (k, v) :: e :: es, fuel + 1, tail, hk, _, hf => by
      simp only [writeEntries, List.tail_cons] at hf
      have hl :=
        length_member level (nameOf k)
          (write level v (writeEntries level (e :: es) (newline outer ('}' :: tail))))
      have hw :=
        length_lt_write level v (writeEntries level (e :: es) (newline outer ('}' :: tail)))
      have hm :=
        readMembers_write level outer (e :: es) fuel tail (keyFault?_cons hk).2 (by simp) (by
        simp only [writeEntries, member, List.tail_cons, List.length_cons] at hl hw ⊢
        omega)
      simp only [writeEntries, member, List.tail_cons] at hm hl hf ⊢
      exact readMembers_comma _
        (readValue_write level v fuel _ (keyFault?_cons hk).1 (.comma _) (by omega)) hm

end

theorem read?_of_readFirst? {text : String} {value : Value}
    (h : readFirst? text.toList = some (value, ['\n'])) : read? text = some value := by
  rw [read?, h]
  rfl

theorem readFirst?_write (t : Tree) (hk : keyFault? t = none) :
    readFirst? (write 0 t ['\n']) = some (image t, ['\n']) :=
  readValue_write 0 t _ ['\n'] hk (.newline _) (by omega)

theorem render_eq_ok {document : Tree} {text : String} :
    render document = .ok text ↔
      keyFault? document = none ∧ String.ofList (write 0 document ['\n']) = text := by
  unfold render
  cases keyFault? document <;> simp

theorem readFirst?_render {document : Tree} {text : String} (h : render document = .ok text) :
    readFirst? text.toList = some (image document, ['\n']) := by
  obtain ⟨hk, rfl⟩ := render_eq_ok.mp h
  rw [String.toList_ofList]
  exact readFirst?_write document hk

theorem read?_render {document : Tree} {text : String} (h : render document = .ok text) :
    read? text = some (image document) :=
  read?_of_readFirst? (readFirst?_render h)

/-- The output for a tree is one value in front of the final newline, and a reader takes it for the
image of the tree. -/
theorem render_reads_back {document : Tree} {text : String} (h : render document = .ok text) :
    readFirst? text.toList = some (image document, ['\n']) ∧ read? text = some (image document) :=
  ⟨readFirst?_render h, read?_render h⟩

/-- A boolean key, an integer key, a float, a tag and escapes. -/
theorem render_reads_back_nested :
    render (.map [(.bool true, .seq [.float (.finite false 3 (-1))]),
          (.int (-7), .tagged "t" (.str "\"\n"))]) =
        .ok ("\x7b\n  \"true\": [\n    1.5\n  ],\n" ++
          "  \"-7\": \x7b\n    \"!t\": \"\\\"\\n\"\n  \x7d\n\x7d\n") ∧
      read? ("\x7b\n  \"true\": [\n    1.5\n  ],\n" ++
          "  \"-7\": \x7b\n    \"!t\": \"\\\"\\n\"\n  \x7d\n\x7d\n") =
        some (image (.map [(.bool true, .seq [.float (.finite false 3 (-1))]),
          (.int (-7), .tagged "t" (.str "\"\n"))])) := by
  have h : render (.map [(.bool true, .seq [.float (.finite false 3 (-1))]),
        (.int (-7), .tagged "t" (.str "\"\n"))]) =
      .ok ("\x7b\n  \"true\": [\n    1.5\n  ],\n" ++
        "  \"-7\": \x7b\n    \"!t\": \"\\\"\\n\"\n  \x7d\n\x7d\n") :=
    Steps.eq_ok_of_toOption (by decide +kernel)
  exact ⟨h, (render_reads_back h).2⟩

end BootConfig.Json
