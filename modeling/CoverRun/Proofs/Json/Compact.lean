import CoverRun.Proofs.Json.Grammar
import CoverRun.Proofs.Json.WrittenNumber

/-!
# Compact texts

What is written for a value without blanks spells its structure (`Value.spells_compactChars`), so it
reads back (`Value.read_compactChars`), and it holds no control character
(`Value.noControl_compactChars`).
-/

namespace CoverRun.Json.Value

/-! ## The structure of a value -/

mutual

/-- The structure of what is written for a value. -/
def node : Value → Node
  | .null => .null
  | .bool b => .bool b
  | .number n => .number n.written
  | .string s => .string (Units.ofText s)
  | .list items => .list (nodes items)
  | .record members => .record (memberNodes members)

/-- The structures of items. -/
def nodes : List Value → List Node
  | [] => []
  | v :: vs => node v :: nodes vs

/-- The structures of members. -/
def memberNodes : List (String × Value) → List (Units × Node)
  | [] => []
  | (k, v) :: ms => (Units.ofText k, node v) :: memberNodes ms

end

/-! ## Spelling -/

theorem spells_item {v : Value} (h : Spells (unitsOf v.compactChars) (.value v.node))
    {vs : Units} {nodes : List Node} (hRest : Spells vs (.items nodes)) :
    Spells (unitsOf (v.compactChars ++ [',']) ++ vs) (.items (v.node :: nodes)) := by
  have hItem := Spells.item areBlanks_nil h areBlanks_nil hRest
  simpa [unitsOf] using hItem

theorem spells_lastItem {v : Value} (h : Spells (unitsOf v.compactChars) (.value v.node)) :
    Spells (unitsOf (v.compactChars ++ [']'])) (.items [v.node]) := by
  have hItem := Spells.lastItem areBlanks_nil h areBlanks_nil
  simpa [unitsOf] using hItem

theorem spells_member (k : String) {v : Value}
    (h : Spells (unitsOf v.compactChars) (.value v.node)) {vs : Units}
    {members : List (Units × Node)} (hRest : Spells vs (.members members)) :
    Spells (unitsOf (quote k ++ ':' :: (v.compactChars ++ [','])) ++ vs)
      (.members ((Units.ofText k, v.node) :: members)) := by
  have hMember := Spells.member areBlanks_nil (spellsString_written k) areBlanks_nil areBlanks_nil h
    areBlanks_nil hRest
  simpa [unitsOf, quote] using hMember

theorem spells_lastMember (k : String) {v : Value}
    (h : Spells (unitsOf v.compactChars) (.value v.node)) :
    Spells (unitsOf (quote k ++ ':' :: (v.compactChars ++ ['}'])))
      (.members [(Units.ofText k, v.node)]) := by
  have hMember := Spells.lastMember areBlanks_nil (spellsString_written k) areBlanks_nil
    areBlanks_nil h areBlanks_nil
  simpa [unitsOf, quote] using hMember

mutual

/-- **What is written for a value spells its structure.** -/
theorem spells_compactChars : ∀ v : Value, Spells (unitsOf v.compactChars) (.value v.node)
  | .null => .null
  | .bool true => .yes
  | .bool false => .no
  | .number n => by
      rw [compactChars, node, ← n.written_chars]
      exact .number n.isProper_written.spellsNumber
  | .string s => by
      have hString := Spells.string (spellsString_written s)
      simpa [compactChars, node, quote, unitsOf] using hString
  | .list [] => .emptyList areBlanks_nil
  | .list (v :: vs) => .list (by
      have hItems := spells_compactItems (v :: vs) (List.cons_ne_nil v vs)
      simpa [unitsOf] using hItems)
  | .record [] => .emptyRecord areBlanks_nil
  | .record (m :: ms) => .record (by
      have hMembers := spells_compactMembers (m :: ms) (List.cons_ne_nil m ms)
      simpa [unitsOf] using hMembers)

theorem spells_compactItems : ∀ vs : List Value, vs ≠ [] →
    Spells (unitsOf (compactItems vs ++ [']'])) (.items (nodes vs))
  | [], h => absurd rfl h
  | [v], _ => spells_lastItem (spells_compactChars v)
  | v :: v' :: vs, _ => by
      have hItem := spells_item (spells_compactChars v)
        (spells_compactItems (v' :: vs) (List.cons_ne_nil v' vs))
      rw [nodes]
      simpa [compactItems, unitsOf] using hItem

theorem spells_compactMembers : ∀ ms : List (String × Value), ms ≠ [] →
    Spells (unitsOf (compactMembers ms ++ ['}'])) (.members (memberNodes ms))
  | [], h => absurd rfl h
  | [(k, v)], _ => by
      have hMember := spells_lastMember k (spells_compactChars v)
      rw [memberNodes, memberNodes]
      simpa [compactMembers, unitsOf] using hMember
  | (k, v) :: m :: ms, _ => by
      have hMember := spells_member k (spells_compactChars v)
        (spells_compactMembers (m :: ms) (List.cons_ne_nil m ms))
      rw [memberNodes]
      simpa [compactMembers, unitsOf] using hMember

end

/-- **What is written reads back.** -/
theorem read_compactChars (v : Value) : Node.read (unitsOf v.compactChars) = some v.node :=
  Node.read_eq_some_iff.2
    ⟨[], _, [], by simp, areBlanks_nil, areBlanks_nil, spells_compactChars v⟩

theorem read_ne_record {v : Value} {cs cs' : List Char} (h : v.compactChars = cs ++ cs')
    (hCut : cs' ≠ []) (members : List (Units × Node)) :
    Node.read (unitsOf cs) ≠ some (.record members) := by
  intro hRead
  have hSpells := spells_compactChars v
  rw [h, unitsOf, List.map_append] at hSpells
  exact hCut (List.map_eq_nil_iff.1 (hSpells.eq_nil_of_read hRead))

/-! ## Control characters -/

/-- There is no control character among the characters. -/
def NoControl (cs : List Char) : Prop := ∀ c ∈ cs, 0x20 ≤ c.toNat

-- Named, since a search over all characters would be found first.
instance (cs : List Char) : Decidable (NoControl cs) :=
  List.decidableBAll (fun c : Char => 0x20 ≤ c.toNat) cs

theorem NoControl.append {cs cs' : List Char} (h : NoControl cs) (h' : NoControl cs') :
    NoControl (cs ++ cs') := List.forall_mem_append.2 ⟨h, h'⟩

theorem NoControl.cons {c : Char} {cs : List Char} (hc : 0x20 ≤ c.toNat) (h : NoControl cs) :
    NoControl (c :: cs) := List.forall_mem_cons.2 ⟨hc, h⟩

theorem noControl_nil : NoControl [] := fun _ h => absurd h List.not_mem_nil

theorem noControl_escapeChar (c : Char) : NoControl (escapeChar c) := by
  have hDigit (n : Nat) : 0x20 ≤ (hexDigit n).toNat :=
    have hAll : ∀ m < 16, 0x20 ≤ m.digitChar.toNat := by decide
    hAll _ (Nat.mod_lt _ (by decide))
  rcases escapeChar_cases c with ⟨e, -, hEscape, hChars, -⟩ | ⟨-, hChars, -⟩ |
    ⟨-, -, hControl, hChars, -⟩ <;> rw [hChars]
  · exact .cons (by decide) <| .cons hEscape noControl_nil
  · exact .cons (by decide) <| .cons (by decide) <| .cons (by decide) <| .cons (by decide) <|
      .cons (hDigit _) <| .cons (hDigit _) noControl_nil
  · exact .cons hControl noControl_nil

theorem noControl_quote (s : String) : NoControl (quote s) := by
  refine .append (.cons (by decide) ?_) (.cons (by decide) noControl_nil)
  intro c hc
  obtain ⟨c', -, hMem⟩ := List.mem_flatMap.1 hc
  exact noControl_escapeChar c' c hMem

theorem noControl_of_areDigits {ds : List Char} (h : AreDigits ds) : NoControl ds := by
  intro c hc
  have hDigit := h.2 c hc
  simp only [isDigitUnit, Bool.and_eq_true, decide_eq_true_eq, Char.le_def,
    UInt32.le_iff_toNat_le] at hDigit
  change 0x20 ≤ c.val.toNat
  have hZero : ('0' : Char).val.toNat = 0x30 := rfl
  omega

theorem noControl_number {t : NumberText} (h : t.IsProper) : NoControl t.chars := by
  obtain ⟨negative, whole, fraction, exponent⟩ := t
  obtain ⟨hWhole, -, hFraction, hExponent⟩ := h
  refine .append ?_ (.append (noControl_of_areDigits hWhole) (.append ?_ ?_))
  · cases negative with
    | true => exact .cons (by decide) noControl_nil
    | false => exact noControl_nil
  · cases fraction with
    | none => exact noControl_nil
    | some ds => exact .cons (by decide) (noControl_of_areDigits (hFraction ds rfl))
  · match exponent with
    | none => exact noControl_nil
    | some (below, ds) =>
        refine .cons (by decide) (.cons ?_ (noControl_of_areDigits (hExponent _ rfl)))
        cases below <;> decide

mutual

/-- **What is written holds no control character.** -/
theorem noControl_compactChars : ∀ v : Value, NoControl v.compactChars
  | .null => by decide
  | .bool true => by decide
  | .bool false => by decide
  | .number n => by
      rw [compactChars, ← n.written_chars]
      exact noControl_number n.isProper_written
  | .string s => noControl_quote s
  | .list items =>
      .append (.cons (by decide) (noControl_compactItems items)) (.cons (by decide) noControl_nil)
  | .record members =>
      .append (.cons (by decide) (noControl_compactMembers members))
        (.cons (by decide) noControl_nil)

theorem noControl_compactItems : ∀ vs : List Value, NoControl (compactItems vs)
  | [] => noControl_nil
  | [v] => noControl_compactChars v
  | v :: v' :: vs => (noControl_compactChars v).append
      (.cons (by decide) (noControl_compactItems (v' :: vs)))

theorem noControl_compactMembers : ∀ ms : List (String × Value), NoControl (compactMembers ms)
  | [] => noControl_nil
  | [(k, v)] => (noControl_quote k).append (.cons (by decide) (noControl_compactChars v))
  | (k, v) :: m :: ms =>
      ((noControl_quote k).append (.cons (by decide) (noControl_compactChars v))).append
        (.cons (by decide) (noControl_compactMembers (m :: ms)))

end

end CoverRun.Json.Value
