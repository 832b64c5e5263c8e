import FlatSelect.Json.Printer
import FlatSelect.Json.Reader
import Mathlib.Tactic.IntervalCases

/-!
# Reading what was written

A value is written as a row of tokens, be it on one line or on many, for a reader passes over the
blanks that make the difference (`Json.spells_compact`, `Json.spells_prettyAt`). Quotes, backslashes
and control characters go through the escapes that they are written with (`Json.spells_quote`). And
the tokens of a value are read as that value (`Json.ofTokens?_tokens`). So a value that is made of
texts alone is got back from either of the ways to write it (`Json.ofText?_compact`,
`Json.ofText?_pretty`).
-/

namespace FlatSelect

namespace Json

mutual
/-- Made of texts, arrays and objects. -/
def Textual : Json → Prop
  | .str text => text.isSome = true
  | .arr items => TextualItems items
  | .obj fields => TextualFields fields
  | _ => False
/-- All of several items are made of texts. -/
def TextualItems : List Json → Prop
  | [] => True
  | item :: rest => item.Textual ∧ TextualItems rest
/-- All of several fields have keys, and values that are made of texts. -/
def TextualFields : List (Option String × Json) → Prop
  | [] => True
  | (key, value) :: rest => key.isSome = true ∧ value.Textual ∧ TextualFields rest
end

mutual
/-- The tokens that a value is written with. -/
def tokens : Json → List Token
  | .null => [.null]
  | .bool value => [.bool value]
  | .num digits => [.num digits]
  | .str text => [.str text]
  | .arr items => .beginArray :: (tokensOfItems items ++ [.endArray])
  | .obj fields => .beginObject :: (tokensOfFields fields ++ [.endObject])
/-- The tokens between the brackets of an array. -/
def tokensOfItems : List Json → List Token
  | [] => []
  | [item] => item.tokens
  | item :: next :: rest => item.tokens ++ .comma :: tokensOfItems (next :: rest)
/-- The tokens between the braces of an object. -/
def tokensOfFields : List (Option String × Json) → List Token
  | [] => []
  | [(key, value)] => .str key :: .colon :: value.tokens
  | (key, value) :: next :: rest =>
    .str key :: .colon :: (value.tokens ++ .comma :: tokensOfFields (next :: rest))
end

/-! ### Escapes -/

/-- What a character is read as, written as it is in a quoted text: control characters without a
short escape are units. -/
def piece (c : Char) : Piece :=
  if c.toNat < 0x20 ∧ c ∉ ['\x08', '\x0c', '\n', '\r', '\t'] then .unit c.toNat else .char c

/-- What a character is written as is read as its piece. -/
theorem scan_escape (done : List Token) (run : List Piece) (c : Char) :
    (escape c).foldlM Scan.step ⟨done, .quoted run⟩ = some ⟨done, .quoted (piece c :: run)⟩ := by
  by_cases hcontrol : c.toNat < 0x20
  -- There are few control characters, and of the others all but two stand for themselves.
  · obtain ⟨n, hn⟩ : ∃ n, n = c.toNat := ⟨_, rfl⟩
    rw [← Char.ofNat_toNat c, ← hn]
    rw [← hn] at hcontrol
    interval_cases n <;> rfl
  · have hpiece : piece c = .char c := if_neg fun h => hcontrol h.1
    by_cases hquote : c = '"'
    · subst hquote
      rfl
    by_cases hslash : c = '\\'
    · subst hslash
      rfl
    have hescape : escape c = [c] := by
      rw [escape.eq_def]
      split <;> first | contradiction | exact if_neg hcontrol
    rw [hescape, hpiece, List.foldlM_cons]
    simp [Scan.step, hquote, hslash, hcontrol]

/-- What the pieces of a text stand for is the text. No unit among them is half of a pair. -/
theorem characters?_map_piece (cs : List Char) : characters? (cs.map piece) = some cs := by
  induction cs with
  | nil => rfl
  | cons c cs ih =>
      rw [List.map_cons]
      by_cases hunit : c.toNat < 0x20 ∧ c ∉ ['\x08', '\x0c', '\n', '\r', '\t']
      · have hhigh : isHigh c.toNat = false := by simp [isHigh]; omega
        have hlow : isLow c.toNat = false := by simp [isLow]; omega
        rw [piece, if_pos hunit]
        cases hrest : cs.map piece with
        | nil => simp_all [characters?]
        | cons first rest => cases first <;> simp_all [characters?]
      · rw [piece, if_neg hunit, characters?, ih]
        rfl

/-! ### Texts that spell tokens -/

/-- Where no token is open, reading a text completes these tokens and leaves none open. -/
def Spells (text : String) (tokens : List Token) : Prop :=
  ∀ done, text.toList.foldlM Scan.step ⟨done, .between⟩ =
    some ⟨tokens.reverse ++ done, .between⟩

namespace Spells

variable {text text' : String} {tokens tokens' : List Token}

theorem append (h : Spells text tokens) (h' : Spells text' tokens') :
    Spells (text ++ text') (tokens ++ tokens') := by
  intro done
  rw [String.toList_append, List.foldlM_append, h done]
  simp only [Option.bind_eq_bind, Option.bind_some]
  rw [h', List.reverse_append, List.append_assoc]

/-- What is blank may follow anything. -/
theorem blank (h : Spells text tokens) (h' : Spells text' []) : Spells (text ++ text') tokens := by
  simpa using h.append h'

theorem array (h : Spells text tokens) :
    Spells ("[" ++ text ++ "]") (.beginArray :: (tokens ++ [.endArray])) := by
  have hopen : Spells "[" [.beginArray] := fun _ => rfl
  have hclose : Spells "]" [.endArray] := fun _ => rfl
  exact (hopen.append h).append hclose

theorem object (h : Spells text tokens) :
    Spells ("\x7b" ++ text ++ "\x7d") (.beginObject :: (tokens ++ [.endObject])) := by
  have hopen : Spells "\x7b" [.beginObject] := fun _ => rfl
  have hclose : Spells "\x7d" [.endObject] := fun _ => rfl
  exact (hopen.append h).append hclose

theorem comma (h : Spells text tokens) (h' : Spells text' tokens') :
    Spells (text ++ "," ++ text') (tokens ++ .comma :: tokens') := by
  have hcomma : Spells "," [.comma] := fun _ => rfl
  simpa using (h.append hcomma).append h'

theorem tokens?_eq (h : Spells text tokens) : tokens? text.toList = some tokens := by
  rw [tokens?, h []]
  simp [Scan.finish?]

end Spells

theorem spells_empty : Spells "" [] := fun _ => rfl

theorem spells_blanks (n : Nat) : Spells (String.ofList (List.replicate n ' ')) [] := by
  intro done
  rw [String.toList_ofList]
  induction n with
  | zero => rfl
  | succ n ih =>
      rw [List.replicate_succ, List.foldlM_cons]
      exact ih

/-- A reader passes over the start of a line. -/
theorem spells_newLine (depth : Nat) : Spells (newLine depth) [] :=
  (show Spells "\n" [] from fun _ => rfl).append (spells_blanks _)

/-- A text is read as it is, whatever characters there are in it. -/
theorem spells_quote (text : String) : Spells (quote (some text)) [.str (some text)] := by
  have hescaped : ∀ (cs : List Char) (run : List Piece) (done : List Token),
      (cs.flatMap escape).foldlM Scan.step ⟨done, .quoted run⟩ =
        some ⟨done, .quoted ((cs.map piece).reverse ++ run)⟩ := by
    intro cs
    induction cs with
    | nil => intro run done; rfl
    | cons c cs ih =>
        intro run done
        rw [List.flatMap_cons, List.foldlM_append, scan_escape]
        simp only [Option.bind_eq_bind, Option.bind_some, ih, List.map_cons, List.reverse_cons,
          List.append_assoc, List.cons_append, List.nil_append]
  intro done
  have hquoted : (quote (some text)).toList = '"' :: (text.toList.flatMap escape ++ ['"']) := by
    simp [quote]
  have hopen : Scan.step ⟨done, .between⟩ '"' = some ⟨done, .quoted []⟩ := rfl
  rw [hquoted, List.foldlM_cons, hopen]
  simp only [Option.bind_eq_bind, Option.bind_some]
  rw [List.foldlM_append, hescaped]
  simp [Scan.step, ← List.map_reverse, characters?_map_piece]

/-- A field, whether or not there is a blank after the colon. -/
theorem Spells.field {text colon : String} {tokens : List Token} (h : Spells text tokens)
    (key : String) (hcolon : Spells colon [.colon]) :
    Spells (quote (some key) ++ colon ++ text) (.str (some key) :: .colon :: tokens) :=
  ((spells_quote key).append hcolon).append h

/-- A field on a line of its own. -/
theorem spells_line {text : String} {tokens : List Token} (depth : Nat) (key : String)
    (h : Spells text tokens) : Spells (newLine depth ++ quote (some key) ++ ": " ++ text)
      (.str (some key) :: .colon :: tokens) := by
  have hcolon : Spells ": " [.colon] := fun _ => rfl
  have hread := (spells_newLine depth).append (h.field key hcolon)
  rwa [← String.append_assoc, ← String.append_assoc] at hread

/-! ### Both ways to write a value -/

mutual
theorem spells_compact : ∀ {json : Json}, json.Textual → Spells json.compact json.tokens
  | .str (some text), _ => spells_quote text
  | .arr items, h => (spells_compactItems h).array
  | .obj fields, h => (spells_compactFields h).object
  | .str none, h | .null, h | .bool _, h | .num _, h => by simp [Textual] at h
theorem spells_compactItems : ∀ {items : List Json}, TextualItems items →
    Spells (compactItems items) (tokensOfItems items)
  | [], _ => spells_empty
  | [_], h => spells_compact h.1
  | _ :: _ :: _, h => (spells_compact h.1).comma (spells_compactItems h.2)
theorem spells_compactFields : ∀ {fields : List (Option String × Json)}, TextualFields fields →
    Spells (compactFields fields) (tokensOfFields fields)
  | [], _ => spells_empty
  | [(some key, _)], h => (spells_compact h.2.1).field key fun _ => rfl
  | (some key, _) :: _ :: _, h =>
    ((spells_compact h.2.1).field key fun _ => rfl).comma (spells_compactFields h.2.2)
  | (none, _) :: _, h => by simp [TextualFields] at h
end

mutual
theorem spells_prettyAt (depth : Nat) :
    ∀ {json : Json}, json.Textual → Spells (json.prettyAt depth) json.tokens
  | .str (some text), _ => spells_quote text
  | .arr [], _ => by
    rw [prettyAt]
    exact spells_empty.array
  | .arr (item :: rest), h => by
    have hread := ((spells_prettyItems (depth + 1) h).blank (spells_newLine depth)).array
    rw [← String.append_assoc] at hread
    rw [prettyAt]
    · exact hread
    · exact List.cons_ne_nil _ _
  | .obj [], _ => by
    rw [prettyAt]
    exact spells_empty.object
  | .obj (field :: rest), h => by
    have hread := ((spells_prettyFields (depth + 1) h).blank (spells_newLine depth)).object
    rw [← String.append_assoc] at hread
    rw [prettyAt]
    · exact hread
    · exact List.cons_ne_nil _ _
  | .str none, h | .null, h | .bool _, h | .num _, h => by simp [Textual] at h
theorem spells_prettyItems (depth : Nat) : ∀ {items : List Json}, TextualItems items →
    Spells (prettyItems depth items) (tokensOfItems items)
  | [], _ => spells_empty
  | [_], h => (spells_newLine depth).append (spells_prettyAt depth h.1)
  | _ :: _ :: _, h => ((spells_newLine depth).append (spells_prettyAt depth h.1)).comma
    (spells_prettyItems depth h.2)
theorem spells_prettyFields (depth : Nat) : ∀ {fields : List (Option String × Json)},
    TextualFields fields → Spells (prettyFields depth fields) (tokensOfFields fields)
  | [], _ => spells_empty
  | [(some key, value)], h => spells_line depth key (spells_prettyAt depth h.2.1)
  | (some key, _) :: _ :: _, h =>
    (spells_line depth key (spells_prettyAt depth h.2.1)).comma (spells_prettyFields depth h.2.2)
  | (none, _) :: _, h => by simp [TextualFields] at h
end

/-! ### Reading tokens -/

theorem tokens_eq_cons (json : Json) :
    ∃ first rest, json.tokens = first :: rest ∧ first ≠ .endArray := by
  cases json <;> exact ⟨_, _, rfl, by simp⟩

theorem tokensOfItems_eq_cons (item : Json) (rest : List Json) :
    ∃ first tail, tokensOfItems (item :: rest) = first :: tail ∧ first ≠ .endArray := by
  obtain ⟨first, tail, htokens, hfirst⟩ := item.tokens_eq_cons
  cases rest with
  | nil => exact ⟨first, tail, htokens, hfirst⟩
  | cons next rest => exact ⟨first, _, by rw [tokensOfItems, htokens, List.cons_append], hfirst⟩

/-- After an opening bracket an item is read as it is after a comma. -/
theorem read_needItemOrEnd (item : Json) (rest : List Json) (after : List Token)
    (stack : List Frame) :
    (tokensOfItems (item :: rest) ++ after).foldlM Parse.step (.needItemOrEnd stack) =
      (tokensOfItems (item :: rest) ++ after).foldlM Parse.step
        (.needValue (.items [] :: stack)) := by
  obtain ⟨first, tail, htokens, hfirst⟩ := tokensOfItems_eq_cons item rest
  rw [htokens, List.cons_append, List.foldlM_cons, List.foldlM_cons]
  cases first <;> first | rfl | exact absurd rfl hfirst

/-- After an opening brace a field is read as it is after a comma. -/
theorem read_needKeyOrEnd (field : Option String × Json) (rest : List (Option String × Json))
    (after : List Token) (stack : List Frame) :
    (tokensOfFields (field :: rest) ++ after).foldlM Parse.step (.needKeyOrEnd stack) =
      (tokensOfFields (field :: rest) ++ after).foldlM Parse.step (.needKey [] stack) := by
  cases rest <;> rfl

mutual
/-- The tokens of a value are read as the value, whatever is open. -/
theorem read_tokens (stack : List Frame) : ∀ json : Json,
    json.tokens.foldlM Parse.step (.needValue stack) = some (.complete json stack)
  | .null | .bool _ | .num _ | .str _ | .arr [] | .obj [] => rfl
  | .arr (item :: rest) => by
    have hread := read_tokensOfItems [] stack (List.cons_ne_nil item rest)
    rw [← read_needItemOrEnd] at hread
    exact hread
  | .obj (field :: rest) => by
    have hread := read_tokensOfFields [] stack (List.cons_ne_nil field rest)
    rw [← read_needKeyOrEnd] at hread
    exact hread
/-- The items of an array, after those `before` them, up to the end of the array. -/
theorem read_tokensOfItems (before : List Json) (stack : List Frame) : ∀ {items : List Json},
    items ≠ [] → (tokensOfItems items ++ [Token.endArray]).foldlM Parse.step
      (.needValue (.items before :: stack)) =
        some (.complete (.arr (before.reverse ++ items)) stack)
  | [], h => absurd rfl h
  | [item], _ => by
    rw [tokensOfItems, List.foldlM_append, read_tokens]
    simp [Parse.step, Parse.continue?]
  | item :: next :: rest, _ => by
    have hrest := read_tokensOfItems (item :: before) stack (List.cons_ne_nil next rest)
    rw [List.reverse_cons, List.append_assoc] at hrest
    rw [tokensOfItems, List.append_assoc, List.foldlM_append, read_tokens]
    exact hrest
/-- The fields of an object, after those `before` them, up to the end of the object. -/
theorem read_tokensOfFields (before : List (Option String × Json)) (stack : List Frame) :
    ∀ {fields : List (Option String × Json)}, fields ≠ [] →
      (tokensOfFields fields ++ [Token.endObject]).foldlM Parse.step (.needKey before stack) =
        some (.complete (.obj (before.reverse ++ fields)) stack)
  | [], h => absurd rfl h
  | [(key, value)], _ => by
    change (value.tokens ++ [Token.endObject]).foldlM
      Parse.step (.needValue (.field before key :: stack)) = _
    rw [List.foldlM_append, read_tokens]
    simp [Parse.step, Parse.continue?]
  | (key, value) :: next :: rest, _ => by
    have hrest := read_tokensOfFields ((key, value) :: before) stack (List.cons_ne_nil next rest)
    rw [List.reverse_cons, List.append_assoc] at hrest
    change (value.tokens ++ .comma :: tokensOfFields (next :: rest) ++ [Token.endObject]).foldlM
      Parse.step (.needValue (.field before key :: stack)) = _
    rw [List.append_assoc, List.foldlM_append, read_tokens]
    exact hrest
end

theorem ofTokens?_tokens (json : Json) : ofTokens? json.tokens = some json := by
  rw [ofTokens?, read_tokens]
  rfl

variable {json : Json}

/-- What is made of texts can be read from what is written of it on one line. -/
theorem ofText?_compact (h : json.Textual) : ofText? json.compact = some json := by
  rw [ofText?, (spells_compact h).tokens?_eq, Option.bind_some, ofTokens?_tokens]

/-- What is made of texts can be read from what is written of it on many lines. -/
theorem ofText?_pretty (h : json.Textual) : ofText? json.pretty = some json := by
  rw [pretty, ofText?, (spells_prettyAt 0 h).tokens?_eq, Option.bind_some, ofTokens?_tokens]

end Json

end FlatSelect
