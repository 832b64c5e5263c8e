import FlatSelect.Expr.Text
import FlatSelect.Proofs.JsonText

/-!
# Queries read back

Every expression is written as an object that is made of texts, whether or not it makes sense: any
kinds, values and operands. What is left out when it is written has just that for its default when
it is read. A reader gives up where too many arrays and objects are open, and nowhere else
(`Expr.ofJson?_toJson`). So an expression is got back from its text exactly if the text is not
nested deeper than a reader goes (`Expr.ofText?_text`).
-/

namespace FlatSelect

namespace Json

mutual
/-- How many arrays and objects are open at the same time, at most. -/
def depth : Json → Nat
  | .arr items => depthOfItems items + 1
  | .obj fields => depthOfFields fields + 1
  | _ => 0
/-- The depth of the deepest of several items. -/
def depthOfItems : List Json → Nat
  | [] => 0
  | item :: rest => max item.depth (depthOfItems rest)
/-- The depth of the deepest of several fields. -/
def depthOfFields : List (Option String × Json) → Nat
  | [] => 0
  | (_, value) :: rest => max value.depth (depthOfFields rest)
end

variable {texts : List String}

theorem textualItems_map_text : TextualItems (texts.map text) := by
  induction texts with
  | nil => trivial
  | cons first rest ih => exact ⟨rfl, ih⟩

theorem depthOfItems_map_text : depthOfItems (texts.map text) = 0 := by
  induction texts with
  | nil => rfl
  | cons first rest ih =>
      rw [List.map_cons, depthOfItems, ih]
      rfl

theorem asTexts?_map_text : (arr (texts.map text)).asTexts? = some texts := by
  have hread : ∀ texts : List String, (texts.map text).mapM asText? = some texts := by
    intro texts
    induction texts with
    | nil => rfl
    | cons first rest ih =>
        rw [List.map_cons, List.mapM_cons, ih]
        rfl
  exact hread texts

end Json

namespace Kind

theorem ofJson?_toJson (room : Nat) (kind : Kind) : ofJson? room kind.toJson = some kind :=
  ofName?_name kind

end Kind

namespace Value

theorem textual_toJson (v : Value) : v.toJson.Textual := by
  cases v with
  | columns entries => exact ⟨rfl, Json.textualItems_map_text, trivial⟩
  | name | rename | derived =>
      simp [toJson, Json.record, Json.Textual, Json.TextualFields, Json.text]

/-- A value is got back where there is room for it. -/
theorem ofNullable?_toJson (lists : Bool) (room : Nat) (v : Value) :
    ofNullable? lists room v.toJson = if v.toJson.depth ≤ room then some (some v) else none := by
  have hread : ofNullable? lists room v.toJson = (ofJson? lists room v.toJson).map some := by
    cases v <;> rfl
  rw [hread]
  cases v with
  | name name =>
      have hdepth : (Value.name name).toJson.depth = 1 := rfl
      rw [hdepth]
      match room with
      | 0 => rfl
      | room + 1 => simp [toJson, Json.record, ofJson?, ofField?, Json.text, Json.asText?]
  | columns entries =>
      have hdepth : (columns entries).toJson.depth = 2 := by
        simp [toJson, Json.record, Json.depth, Json.depthOfFields, Json.depthOfItems_map_text]
      rw [hdepth]
      match room with
      | 0 | 1 => simp [toJson, Json.record, ofJson?, ofField?, texts?]
      | room + 2 =>
        simp [toJson, Json.record, ofJson?, ofField?, texts?, Json.asTexts?_map_text]
  | rename new old =>
      have hdepth : (rename new old).toJson.depth = 2 := rfl
      rw [hdepth]
      match room with
      | 0 | 1 => simp [toJson, Json.record, ofJson?, ofField?, pair?]
      | room + 2 =>
        cases lists <;> simp [toJson, Json.record, ofJson?, ofField?, pair?, pairOfFields?,
          Json.text, Json.asText?]
  | derived asName source =>
      have hdepth : (derived asName source).toJson.depth = 2 := rfl
      rw [hdepth]
      match room with
      | 0 | 1 => simp [toJson, Json.record, ofJson?, ofField?, pair?]
      | room + 2 =>
        cases lists <;> simp [toJson, Json.record, ofJson?, ofField?, pair?, pairOfFields?,
          Json.text, Json.asText?]

end Value

namespace Expr

mutual
theorem textual_toJson : ∀ e : Expr, e.toJson.Textual
  | .node kind value children => by
    have hchildren := textualItems_toJsons children
    cases value <;> cases children <;>
      simp_all [toJson, Json.record, Json.Textual, Json.TextualFields, Kind.toJson, Json.text,
        Value.textual_toJson]
theorem textualItems_toJsons : ∀ es : List Expr, Json.TextualItems (toJsons es)
  | [] => trivial
  | e :: es => ⟨textual_toJson e, textualItems_toJsons es⟩
end

mutual
/-- A query is got back where there is room for it. -/
theorem ofJson?_toJson (lists : Bool) : ∀ (e : Expr) (room : Nat),
    ofJson? lists room e.toJson = if e.toJson.depth ≤ room then some e else none
  | .node kind value children, 0 => by
    simp [toJson, Json.record, ofJson?, Json.depth]
  | .node kind value children, room + 1 => by
    have hchildren := childrenOf?_toJsons lists children room
    have hvalue := Value.ofNullable?_toJson lists room
    have hfields : ∀ fields, ofFields? lists room .unread ((some "kind", kind.toJson) :: fields) =
        ofFields? lists room ⟨some kind, none, none⟩ fields := by
      intro fields
      simp [ofFields?, Fields.unread, Kind.ofJson?_toJson]
    have hdepth : kind.toJson.depth = 0 := rfl
    rw [toJson, Json.record, ofJson?, if_neg (Nat.succ_ne_zero room), Nat.add_sub_cancel]
    -- What there is of the value and of the operands says which fields there are.
    cases value with
    | none =>
        cases children with
        | nil => simp [hfields, ofFields?, Fields.expr?, hdepth, Json.depth, Json.depthOfFields]
        | cons child rest =>
            generalize Json.arr (toJsons (child :: rest)) = items at hchildren ⊢
            by_cases hroom : items.depth ≤ room <;>
              simp [hfields, ofFields?, Fields.expr?, hdepth, hchildren, hroom, Json.depth,
                Json.depthOfFields]
    | some v =>
        cases children with
        | nil =>
            by_cases hroom : v.toJson.depth ≤ room <;>
              simp [hfields, ofFields?, Fields.expr?, hdepth, hvalue, hroom, Json.depth,
                Json.depthOfFields]
        | cons child rest =>
            generalize Json.arr (toJsons (child :: rest)) = items at hchildren ⊢
            by_cases hroom : v.toJson.depth ≤ room <;> by_cases hrooms : items.depth ≤ room <;>
              simp [hfields, ofFields?, Fields.expr?, hdepth, hvalue, hchildren, hroom, hrooms,
                Json.depth, Json.depthOfFields]
theorem childrenOf?_toJsons (lists : Bool) : ∀ (es : List Expr) (room : Nat),
    childrenOf? lists room (.arr (toJsons es)) =
      if (Json.arr (toJsons es)).depth ≤ room then some es else none
  | es, 0 => by
    simp [childrenOf?, Json.depth]
  | es, room + 1 => by
    have hread := ofJsons?_toJsons lists es room
    simp [childrenOf?, Json.depth, hread]
theorem ofJsons?_toJsons (lists : Bool) : ∀ (es : List Expr) (room : Nat),
    ofJsons? lists room (toJsons es) =
      if Json.depthOfItems (toJsons es) ≤ room then some es else none
  | [], room => by simp [toJsons, ofJsons?, Json.depthOfItems]
  | e :: es, room => by
    have hfirst := ofJson?_toJson lists e room
    have hrest := ofJsons?_toJsons lists es room
    rw [toJsons, ofJsons?, hfirst, hrest, Json.depthOfItems]
    by_cases hroom : e.toJson.depth ≤ room <;>
      by_cases hrooms : Json.depthOfItems (toJsons es) ≤ room <;> simp [hroom, hrooms]
end

/-- Every expression, of whatever kinds, values and operands, is got back from its text on one line
and from its text over several lines, as long as the text is not nested too deeply. A text that is
nested any deeper is refused. -/
theorem ofText?_text (e : Expr) :
    (e.toJson.depth ≤ nestingLimit →
      ofText? e.compactText = some e ∧ ofText? e.prettyText = some e) ∧
    (nestingLimit < e.toJson.depth →
      ofText? e.compactText = none ∧ ofText? e.prettyText = none) := by
  have hcompact : ofText? e.compactText = ofJson? true nestingLimit e.toJson := by
    rw [ofText?, compactText, Json.ofText?_compact (textual_toJson e), Option.bind_some]
  have hpretty : ofText? e.prettyText = ofJson? true nestingLimit e.toJson := by
    rw [ofText?, prettyText, Json.ofText?_pretty (textual_toJson e), Option.bind_some]
  rw [hcompact, hpretty, ofJson?_toJson]
  constructor
  · intro hroom
    rw [if_pos hroom]
    exact ⟨rfl, rfl⟩
  · intro hdeep
    rw [if_neg (Nat.not_le_of_lt hdeep)]
    exact ⟨rfl, rfl⟩

/-- Sixty-two negations, one upon the other, of a constant in which there are all sorts of
characters. -/
theorem ofText?_text_deepest :
    let e := (Expr.not^[62]) (.constant (.rename "a\x00\"\\\n" "\u00e9\u2028\u0085"))
    e.toJson.depth = nestingLimit ∧
      ofText? e.compactText = some e ∧ ofText? e.prettyText = some e := by
  intro e
  have hdepth : e.toJson.depth = nestingLimit := by decide +kernel
  exact ⟨hdepth, (ofText?_text e).1 hdepth.le⟩

end Expr

end FlatSelect
