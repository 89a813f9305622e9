import CoverRun.Proofs.Json.Compact

/-!
# Indented texts

What is written for a value with a line for each item spells the structure of the value as well: new
lines and indents are blanks, and the grammar allows blanks around items and around the colon of a
member (`Value.spells_prettyChars`). So it reads back as what is written without blanks does,
at whatever level of nesting it is written (`Value.read_prettyChars`).
-/

namespace CoverRun.Json.Value

theorem areBlanks_newLine (level : Nat) : AreBlanks (unitsOf (newLine level)) := by
  intro u hu
  obtain ⟨c, hc, rfl⟩ := List.mem_map.1 hu
  rcases List.mem_cons.1 hc with rfl | hc
  · rfl
  · rw [List.eq_of_mem_replicate hc]
    rfl

theorem areBlanks_space : AreBlanks [some ' '] := by
  intro u hu
  rw [List.mem_singleton.1 hu]
  rfl

mutual

/-- **What is written with lines for items spells the structure of the value.** -/
theorem spells_prettyChars : ∀ (v : Value) (level : Nat),
    Spells (unitsOf (v.prettyChars level)) (.value v.node)
  | .null, _ => .null
  | .bool true, _ => .yes
  | .bool false, _ => .no
  | .number n, _ => by
      rw [prettyChars, node, ← n.written_chars]
      exact .number n.isProper_written.spellsNumber
  | .string s, _ => by
      have hString := Spells.string (spellsString_written s)
      simpa [prettyChars, node, quote, unitsOf] using hString
  | .list [], _ => .emptyList areBlanks_nil
  | .list (v :: vs), level => by
      have hItems := spells_prettyItems (v :: vs) (List.cons_ne_nil v vs) (level + 1) level
      have hList := Spells.list hItems
      simpa [prettyChars, node, unitsOf] using hList
  | .record [], _ => .emptyRecord areBlanks_nil
  | .record (m :: ms), level => by
      have hMembers := spells_prettyMembers (m :: ms) (List.cons_ne_nil m ms) (level + 1) level
      have hRecord := Spells.record hMembers
      simpa [prettyChars, node, unitsOf] using hRecord

theorem spells_prettyItems : ∀ vs : List Value, vs ≠ [] → ∀ level outer : Nat,
    Spells (unitsOf (newLine level ++ (prettyItems level vs ++ (newLine outer ++ [']']))))
      (.items (nodes vs))
  | [], h, _, _ => absurd rfl h
  | [v], _, level, outer => by
      have hItem := Spells.lastItem (areBlanks_newLine level) (spells_prettyChars v level)
        (areBlanks_newLine outer)
      simpa [prettyItems, nodes, unitsOf] using hItem
  | v :: v' :: vs, _, level, outer => by
      have hRest := spells_prettyItems (v' :: vs) (List.cons_ne_nil v' vs) level outer
      have hItem := Spells.item (areBlanks_newLine level) (spells_prettyChars v level)
        areBlanks_nil hRest
      rw [nodes]
      simpa [prettyItems, unitsOf] using hItem

theorem spells_prettyMembers : ∀ ms : List (String × Value), ms ≠ [] → ∀ level outer : Nat,
    Spells (unitsOf (newLine level ++ (prettyMembers level ms ++ (newLine outer ++ ['}']))))
      (.members (memberNodes ms))
  | [], h, _, _ => absurd rfl h
  | [(k, v)], _, level, outer => by
      have hMember := Spells.lastMember (areBlanks_newLine level) (spellsString_written k)
        areBlanks_nil areBlanks_space (spells_prettyChars v level) (areBlanks_newLine outer)
      rw [memberNodes, memberNodes]
      simpa [prettyMembers, quote, unitsOf] using hMember
  | (k, v) :: m :: ms, _, level, outer => by
      have hRest := spells_prettyMembers (m :: ms) (List.cons_ne_nil m ms) level outer
      have hMember := Spells.member (areBlanks_newLine level) (spellsString_written k)
        areBlanks_nil areBlanks_space (spells_prettyChars v level) areBlanks_nil hRest
      rw [memberNodes]
      simpa [prettyMembers, quote, unitsOf] using hMember

end

theorem read_compact (v : Value) : Node.read (Units.ofText v.compact) = some v.node := by
  rw [Units.ofText, compact, String.toList_ofList]
  exact read_compactChars v

/-- **What is written with lines for items reads back**, at any level. -/
theorem read_prettyChars (v : Value) (level : Nat) :
    Node.read (Units.ofText (String.ofList (v.prettyChars level))) = some v.node := by
  rw [Units.ofText, String.toList_ofList, Node.read_eq_some_iff]
  exact ⟨[], _, [], by simp, areBlanks_nil, areBlanks_nil, spells_prettyChars v level⟩

end CoverRun.Json.Value
