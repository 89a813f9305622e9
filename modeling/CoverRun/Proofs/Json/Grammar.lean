import CoverRun.Proofs.Json.Token

/-!
# The grammar of JSON

`Spells us (.value node)`: the units `us` are a JSON text with the structure `node`, without blanks
around it. The reader accepts what the grammar derives, between blanks, and yields its structure
(`Node.read_eq_some_iff`).
-/

namespace CoverRun.Json

/-! ## Blanks -/

/-- Blanks, and nothing else. -/
def AreBlanks (us : Units) : Prop := ∀ u ∈ us, isBlankUnit u = true

theorem areBlanks_nil : AreBlanks [] := fun _ h => absurd h List.not_mem_nil

theorem skipBlanks_append {bs : Units} (h : AreBlanks bs) (us : Units) :
    skipBlanks (bs ++ us) = skipBlanks us := List.dropWhile_append_of_pos h

theorem skipBlanks_cons {u : Option Char} (h : isBlankUnit u = false) (us : Units) :
    skipBlanks (u :: us) = u :: us := List.dropWhile_cons_of_neg (by simp [h])

theorem skipBlanks_append_cons {bs : Units} (h : AreBlanks bs) {u : Option Char}
    (hu : isBlankUnit u = false) (us : Units) : skipBlanks (bs ++ u :: us) = u :: us := by
  rw [skipBlanks_append h, skipBlanks_cons hu]

theorem exists_blanks (us : Units) : ∃ bs, us = bs ++ skipBlanks us ∧ AreBlanks bs :=
  ⟨us.takeWhile isBlankUnit, List.takeWhile_append_dropWhile.symm,
    fun _ hu => List.mem_takeWhile_imp hu⟩

theorem skipBlanks_skipBlanks (us : Units) : skipBlanks (skipBlanks us) = skipBlanks us := by
  obtain ⟨bs, hUs, hBlanks⟩ := exists_blanks us
  have hSkip := skipBlanks_append hBlanks (skipBlanks us)
  rw [← hUs] at hSkip
  exact hSkip.symm

theorem isEmpty_skipBlanks {us : Units} : (skipBlanks us).isEmpty = true ↔ AreBlanks us := by
  rw [List.isEmpty_iff, skipBlanks, List.dropWhile_eq_nil_iff, AreBlanks]

theorem AreBlanks.endsNumber {us : Units} (h : AreBlanks us) : EndsNumber us := by
  intro u hu
  have hBlank := h u (List.mem_of_mem_head? hu)
  simp only [isBlankUnit, Bool.or_eq_true, beq_iff_eq] at hBlank
  rcases hBlank with ((rfl | rfl) | rfl) | rfl <;> decide

theorem AreBlanks.endsNumber_append {bs : Units} (h : AreBlanks bs) {mark : Option Char}
    (hMark : isDigitUnit mark = false ∧ mark ≠ some '.' ∧ mark ≠ some 'e' ∧ mark ≠ some 'E')
    (us : Units) : EndsNumber (bs ++ mark :: us) := by
  cases bs with
  | nil =>
      rintro u hu
      obtain rfl : mark = u := Option.some.inj hu
      exact hMark
  | cons b bs => exact fun u hu => h.endsNumber u hu

/-! ## The grammar -/

/-- What units can spell: a value, or the items of a list or the members of a record, up to and with
the closing mark. -/
inductive Part where
  | value (node : Node)
  | items (nodes : List Node)
  | members (members : List (Units × Node))

/-- The units spell a part of a JSON text. -/
inductive Spells : Units → Part → Prop
  | null : Spells (unitsOf ['n', 'u', 'l', 'l']) (.value .null)
  | yes : Spells (unitsOf ['t', 'r', 'u', 'e']) (.value (.bool true))
  | no : Spells (unitsOf ['f', 'a', 'l', 's', 'e']) (.value (.bool false))
  | string {us s : Units} : SpellsString us s → Spells (some '"' :: us) (.value (.string s))
  | number {us : Units} {t : NumberText} : SpellsNumber us t → Spells us (.value (.number t))
  | emptyList {bs : Units} : AreBlanks bs →
      Spells (some '[' :: (bs ++ [some ']'])) (.value (.list []))
  | list {us : Units} {nodes : List Node} : Spells us (.items nodes) →
      Spells (some '[' :: us) (.value (.list nodes))
  | emptyRecord {bs : Units} : AreBlanks bs →
      Spells (some '{' :: (bs ++ [some '}'])) (.value (.record []))
  | record {us : Units} {members : List (Units × Node)} : Spells us (.members members) →
      Spells (some '{' :: us) (.value (.record members))
  | lastItem {bs us cs : Units} {node : Node} :
      AreBlanks bs → Spells us (.value node) → AreBlanks cs →
      Spells (bs ++ (us ++ (cs ++ [some ']']))) (.items [node])
  | item {bs us cs vs : Units} {node : Node} {nodes : List Node} :
      AreBlanks bs → Spells us (.value node) → AreBlanks cs → Spells vs (.items nodes) →
      Spells (bs ++ (us ++ (cs ++ some ',' :: vs))) (.items (node :: nodes))
  | lastMember {bs ks key cs ds us es : Units} {node : Node} :
      AreBlanks bs → SpellsString ks key → AreBlanks cs → AreBlanks ds → Spells us (.value node) →
      AreBlanks es →
      Spells (bs ++ some '"' :: (ks ++ (cs ++ some ':' :: (ds ++ (us ++ (es ++ [some '}']))))))
        (.members [(key, node)])
  | member {bs ks key cs ds us es vs : Units} {node : Node} {members : List (Units × Node)} :
      AreBlanks bs → SpellsString ks key → AreBlanks cs → AreBlanks ds → Spells us (.value node) →
      AreBlanks es → Spells vs (.members members) →
      Spells (bs ++ some '"' :: (ks ++ (cs ++ some ':' :: (ds ++ (us ++ (es ++ some ',' :: vs))))))
        (.members ((key, node) :: members))

/-! ## Steps of the reader -/

theorem value?_append {bs : Units} (h : AreBlanks bs) (fuel : Nat) (us : Units) :
    value? fuel (bs ++ us) = value? fuel us := by
  cases fuel with
  | zero => rfl
  | succ fuel => rw [value?, value?, skipBlanks_append h]

theorem value?_skipBlanks (fuel : Nat) (us : Units) :
    value? fuel (skipBlanks us) = value? fuel us := by
  obtain ⟨bs, hUs, hBlanks⟩ := exists_blanks us
  conv => rhs; rw [hUs, value?_append hBlanks]

theorem items?_skipBlanks (fuel : Nat) (us : Units) :
    items? fuel (skipBlanks us) = items? fuel us := by
  cases fuel with
  | zero => rfl
  | succ fuel => rw [items?, items?, value?_skipBlanks]

theorem members?_skipBlanks (fuel : Nat) (us : Units) :
    members? fuel (skipBlanks us) = members? fuel us := by
  cases fuel with
  | zero => rfl
  | succ fuel => rw [members?, members?, skipBlanks_skipBlanks]

theorem value?_string {us s rest : Units} (h : SpellsString us s) (fuel : Nat) :
    value? (fuel + 1) (some '"' :: (us ++ rest)) = some (.string s, rest) := by
  change (string? (us ++ rest)).map _ = _
  rw [string?_eq_some_iff.2 ⟨us, rfl, h⟩]
  rfl

theorem value?_list {us : Units} (h : ∀ vs, skipBlanks us ≠ some ']' :: vs) (fuel : Nat) :
    value? (fuel + 1) (some '[' :: us) = (items? fuel us).map fun r => (.list r.1, r.2) := by
  rw [← items?_skipBlanks, value?, skipBlanks_cons (by decide)]
  simp

theorem value?_record {us : Units} (h : ∀ vs, skipBlanks us ≠ some '}' :: vs) (fuel : Nat) :
    value? (fuel + 1) (some '{' :: us) = (members? fuel us).map fun r => (.record r.1, r.2) := by
  rw [← members?_skipBlanks, value?, skipBlanks_cons (by decide)]
  simp

theorem value?_emptyList {bs : Units} (h : AreBlanks bs) (fuel : Nat) (rest : Units) :
    value? (fuel + 1) (some '[' :: (bs ++ some ']' :: rest)) = some (.list [], rest) := by
  have hClose : skipBlanks (bs ++ some ']' :: rest) = some ']' :: rest :=
    skipBlanks_append_cons h (by decide) rest
  rw [value?, skipBlanks_cons (by decide)]
  simp [hClose]

theorem value?_emptyRecord {bs : Units} (h : AreBlanks bs) (fuel : Nat) (rest : Units) :
    value? (fuel + 1) (some '{' :: (bs ++ some '}' :: rest)) = some (.record [], rest) := by
  have hClose : skipBlanks (bs ++ some '}' :: rest) = some '}' :: rest :=
    skipBlanks_append_cons h (by decide) rest
  rw [value?, skipBlanks_cons (by decide)]
  simp [hClose]

theorem items?_last {fuel : Nat} {us vs rest : Units} {node : Node}
    (hValue : value? fuel us = some (node, vs)) (hClose : skipBlanks vs = some ']' :: rest) :
    items? (fuel + 1) us = some ([node], rest) := by
  rw [items?, hValue]
  simp only [hClose]

theorem items?_next {fuel : Nat} {us vs ws : Units} {node : Node}
    (hValue : value? fuel us = some (node, vs)) (hComma : skipBlanks vs = some ',' :: ws) :
    items? (fuel + 1) us = (items? fuel ws).map fun r => (node :: r.1, r.2) := by
  rw [items?, hValue]
  simp only [hComma]

section

variable {bs ks key cs : Units} (hBs : AreBlanks bs) (hKey : SpellsString ks key)
  (hCs : AreBlanks cs) {fuel : Nat} {us vs : Units} {node : Node}
  (hValue : value? fuel us = some (node, vs))

include hBs hKey hCs hValue

theorem members?_last {rest : Units} (hClose : skipBlanks vs = some '}' :: rest) :
    members? (fuel + 1) (bs ++ some '"' :: (ks ++ (cs ++ some ':' :: us))) =
      some ([(key, node)], rest) := by
  have hString : string? (ks ++ (cs ++ some ':' :: us)) = some (key, cs ++ some ':' :: us) :=
    string?_eq_some_iff.2 ⟨ks, rfl, hKey⟩
  have hColon := skipBlanks_append_cons hCs (show isBlankUnit (some ':') = false by decide) us
  rw [members?, skipBlanks_append_cons hBs (by decide)]
  simp only [hString, hColon, hValue, hClose]

theorem members?_next {ws : Units} (hComma : skipBlanks vs = some ',' :: ws) :
    members? (fuel + 1) (bs ++ some '"' :: (ks ++ (cs ++ some ':' :: us))) =
      (members? fuel ws).map fun r => ((key, node) :: r.1, r.2) := by
  have hString : string? (ks ++ (cs ++ some ':' :: us)) = some (key, cs ++ some ':' :: us) :=
    string?_eq_some_iff.2 ⟨ks, rfl, hKey⟩
  have hColon := skipBlanks_append_cons hCs (show isBlankUnit (some ':') = false by decide) us
  rw [members?, skipBlanks_append_cons hBs (by decide)]
  simp only [hString, hColon, hValue, hComma]

end

/-- A unit with which a number begins. -/
def BeginsNumber (u : Option Char) : Prop := isDigitUnit u = true ∨ u = some '-'

theorem SpellsNumber.exists_cons {us : Units} {t : NumberText} (h : SpellsNumber us t) :
    ∃ u vs, us = u :: vs ∧ BeginsNumber u := by
  obtain @⟨negative, us, vs, ws, whole, fraction, exponent, ⟨hDigits, -⟩, -, -⟩ := h
  cases negative with
  | true => exact ⟨some '-', _, rfl, Or.inr rfl⟩
  | false =>
      obtain ⟨d, ds, rfl, hd⟩ := hDigits.exists_cons
      exact ⟨some d, _, rfl, Or.inl hd⟩

theorem BeginsNumber.ne {u : Option Char} (h : BeginsNumber u) :
    u ∉ unitsOf [' ', '\n', '\t', '\r', 'n', 't', 'f', '"', '[', '{', ']', '}', ','] := by
  intro hMem
  rcases h with h | rfl
  · simp only [unitsOf, List.map_cons, List.map_nil, List.mem_cons, List.not_mem_nil, or_false]
      at hMem
    rcases hMem with rfl | rfl | rfl | rfl | rfl | rfl | rfl | rfl | rfl | rfl | rfl | rfl | rfl <;>
      exact absurd h (by decide)
  · exact absurd hMem (by decide)

theorem BeginsNumber.isBlankUnit {u : Option Char} (h : BeginsNumber u) :
    isBlankUnit u = false := by
  have hNe := h.ne
  simp only [Json.isBlankUnit, Bool.or_eq_false_iff, beq_eq_false_iff_ne]
  refine ⟨⟨⟨?_, ?_⟩, ?_⟩, ?_⟩ <;> rintro rfl <;> exact hNe (by decide)

theorem value?_number {us : Units} {t : NumberText} (h : SpellsNumber us t) {rest : Units}
    (hEnd : EndsNumber rest) (fuel : Nat) :
    value? (fuel + 1) (us ++ rest) = some (.number t, rest) := by
  have hNumber := h.number? hEnd
  obtain ⟨u, vs, rfl, hBegins⟩ := h.exists_cons
  rw [value?, List.cons_append, skipBlanks_cons hBegins.isBlankUnit]
  split
  case h_7 => rw [← List.cons_append, hNumber]; rfl
  all_goals
    next hCons =>
    obtain ⟨rfl, -⟩ := List.cons.inj hCons
    exact absurd (by decide) hBegins.ne

/-! ## The reader accepts what is spelled -/

/-- What begins a value is neither a blank nor a closing mark. -/
theorem Spells.head {us : Units} {node : Node} (h : Spells us (.value node)) :
    ∃ u vs, us = u :: vs ∧ isBlankUnit u = false ∧ u ≠ some ']' := by
  cases h with
  | number hNumber =>
      obtain ⟨u, vs, rfl, hBegins⟩ := hNumber.exists_cons
      refine ⟨u, vs, rfl, hBegins.isBlankUnit, ?_⟩
      rintro rfl
      exact hBegins.ne (by decide)
  | _ => exact ⟨_, _, rfl, by decide, by decide⟩

theorem Spells.skipBlanks_items {us : Units} {nodes : List Node} (h : Spells us (.items nodes))
    (rest : Units) : ∀ vs, skipBlanks (us ++ rest) ≠ some ']' :: vs := by
  have hItem {bs us : Units} {node : Node} (hBlanks : AreBlanks bs)
      (hValue : Spells us (.value node)) (ws : Units) :
      ∀ vs, skipBlanks (bs ++ (us ++ ws)) ≠ some ']' :: vs := by
    obtain ⟨u, us, rfl, hBlank, hNe⟩ := hValue.head
    rw [skipBlanks_append hBlanks, List.cons_append, skipBlanks_cons hBlank]
    intro vs hEq
    exact hNe (List.cons.inj hEq).1
  cases h with
  | lastItem hBlanks hValue _ =>
      simp only [List.append_assoc]
      exact hItem hBlanks hValue _
  | item hBlanks hValue _ _ =>
      simp only [List.append_assoc]
      exact hItem hBlanks hValue _

theorem Spells.skipBlanks_members {us : Units} {members : List (Units × Node)}
    (h : Spells us (.members members)) (rest : Units) :
    ∀ vs, skipBlanks (us ++ rest) ≠ some '}' :: vs := by
  intro vs
  cases h with
  | lastMember hBlanks =>
      rw [List.append_assoc, skipBlanks_append hBlanks]
      exact fun hEq => absurd (List.cons.inj hEq).1 (by decide)
  | member hBlanks =>
      rw [List.append_assoc, skipBlanks_append hBlanks]
      exact fun hEq => absurd (List.cons.inj hEq).1 (by decide)

/-- With enough steps the reader takes in the units as this part, whatever follows them, but for
what could belong to a number. -/
def ReadAs (us : Units) : Part → Prop
  | .value node => ∀ fuel rest, 2 * us.length ≤ fuel → (∀ t, node = .number t → EndsNumber rest) →
      value? fuel (us ++ rest) = some (node, rest)
  | .items nodes => ∀ fuel rest, 2 * us.length + 1 ≤ fuel →
      items? fuel (us ++ rest) = some (nodes, rest)
  | .members members => ∀ fuel rest, 2 * us.length + 1 ≤ fuel →
      members? fuel (us ++ rest) = some (members, rest)

theorem Spells.readAs {us : Units} {part : Part} (h : Spells us part) : ReadAs us part := by
  induction h with
  | null | yes | no =>
      intro fuel rest hFuel _
      obtain ⟨fuel, rfl⟩ := Nat.exists_eq_add_one.2 (show 0 < fuel by simp at hFuel; omega)
      rfl
  | string hString =>
      intro fuel rest hFuel _
      rw [List.length_cons] at hFuel
      obtain ⟨fuel, rfl⟩ := Nat.exists_eq_add_one.2 (show 0 < fuel by omega)
      exact value?_string hString fuel
  | number hNumber =>
      intro fuel rest hFuel hEnd
      obtain ⟨u, vs, rfl, -⟩ := hNumber.exists_cons
      rw [List.length_cons] at hFuel
      obtain ⟨fuel, rfl⟩ := Nat.exists_eq_add_one.2 (show 0 < fuel by omega)
      exact value?_number hNumber (hEnd _ rfl) fuel
  | emptyList hBlanks =>
      intro fuel rest hFuel _
      rw [List.length_cons] at hFuel
      obtain ⟨fuel, rfl⟩ := Nat.exists_eq_add_one.2 (show 0 < fuel by omega)
      rw [List.cons_append, List.append_assoc]
      exact value?_emptyList hBlanks fuel rest
  | list hItems ih =>
      intro fuel rest hFuel _
      rw [List.length_cons] at hFuel
      obtain ⟨fuel, rfl⟩ := Nat.exists_eq_add_one.2 (show 0 < fuel by omega)
      rw [List.cons_append, value?_list (hItems.skipBlanks_items rest), ih fuel rest (by omega)]
      rfl
  | emptyRecord hBlanks =>
      intro fuel rest hFuel _
      rw [List.length_cons] at hFuel
      obtain ⟨fuel, rfl⟩ := Nat.exists_eq_add_one.2 (show 0 < fuel by omega)
      rw [List.cons_append, List.append_assoc]
      exact value?_emptyRecord hBlanks fuel rest
  | record hMembers ih =>
      intro fuel rest hFuel _
      rw [List.length_cons] at hFuel
      obtain ⟨fuel, rfl⟩ := Nat.exists_eq_add_one.2 (show 0 < fuel by omega)
      rw [List.cons_append, value?_record (hMembers.skipBlanks_members rest),
        ih fuel rest (by omega)]
      rfl
  | @lastItem bs us cs node hBs _ hCs ih =>
      intro fuel rest hFuel
      obtain ⟨fuel, rfl⟩ := Nat.exists_eq_add_one.2 (show 0 < fuel by omega)
      simp only [List.length_append, List.length_cons, List.length_nil] at hFuel
      simp only [List.append_assoc, List.cons_append, List.nil_append]
      have hEnd : EndsNumber (cs ++ some ']' :: rest) := hCs.endsNumber_append (by decide) _
      have hValue := ih fuel (cs ++ some ']' :: rest) (by omega) fun _ _ => hEnd
      rw [← value?_append hBs] at hValue
      exact items?_last hValue (skipBlanks_append_cons hCs (by decide) rest)
  | @item bs us cs vs node nodes hBs _ hCs _ ihValue ihRest =>
      intro fuel rest hFuel
      obtain ⟨fuel, rfl⟩ := Nat.exists_eq_add_one.2 (show 0 < fuel by omega)
      simp only [List.length_append, List.length_cons] at hFuel
      simp only [List.append_assoc, List.cons_append]
      have hEnd : EndsNumber (cs ++ some ',' :: (vs ++ rest)) := hCs.endsNumber_append (by decide) _
      have hValue := ihValue fuel (cs ++ some ',' :: (vs ++ rest)) (by omega) fun _ _ => hEnd
      rw [← value?_append hBs] at hValue
      rw [items?_next hValue (skipBlanks_append_cons hCs (by decide) _),
        ihRest fuel rest (by omega)]
      rfl
  | @lastMember bs ks key cs ds us es node hBs hKey hCs hDs _ hEs ih =>
      intro fuel rest hFuel
      obtain ⟨fuel, rfl⟩ := Nat.exists_eq_add_one.2 (show 0 < fuel by omega)
      simp only [List.length_append, List.length_cons, List.length_nil] at hFuel
      simp only [List.append_assoc, List.cons_append, List.nil_append]
      have hEnd : EndsNumber (es ++ some '}' :: rest) := hEs.endsNumber_append (by decide) _
      have hValue := ih fuel (es ++ some '}' :: rest) (by omega) fun _ _ => hEnd
      rw [← value?_append hDs] at hValue
      exact members?_last hBs hKey hCs hValue (skipBlanks_append_cons hEs (by decide) rest)
  | @member bs ks key cs ds us es vs node members hBs hKey hCs hDs _ hEs _ ihValue ihRest =>
      intro fuel rest hFuel
      obtain ⟨fuel, rfl⟩ := Nat.exists_eq_add_one.2 (show 0 < fuel by omega)
      simp only [List.length_append, List.length_cons] at hFuel
      simp only [List.append_assoc, List.cons_append]
      have hEnd : EndsNumber (es ++ some ',' :: (vs ++ rest)) := hEs.endsNumber_append (by decide) _
      have hValue := ihValue fuel (es ++ some ',' :: (vs ++ rest)) (by omega) fun _ _ => hEnd
      rw [← value?_append hDs] at hValue
      rw [members?_next hBs hKey hCs hValue (skipBlanks_append_cons hEs (by decide) _),
        ihRest fuel rest (by omega)]
      rfl

/-! ## What the reader accepts is spelled -/

/-- What is read as a value with so many steps spells it, after blanks. -/
def ValuesSpelled (fuel : Nat) : Prop :=
  ∀ us node rest, value? fuel us = some (node, rest) →
    ∃ bs pre, us = bs ++ (pre ++ rest) ∧ AreBlanks bs ∧ Spells pre (.value node)

/-- What is read as items with so many steps spells them. -/
def ItemsSpelled (fuel : Nat) : Prop :=
  ∀ us nodes rest, items? fuel us = some (nodes, rest) →
    ∃ pre, us = pre ++ rest ∧ Spells pre (.items nodes)

/-- What is read as members with so many steps spells them. -/
def MembersSpelled (fuel : Nat) : Prop :=
  ∀ us members rest, members? fuel us = some (members, rest) →
    ∃ pre, us = pre ++ rest ∧ Spells pre (.members members)

theorem exists_of_skipBlanks {us vs : Units} (h : skipBlanks us = vs) :
    ∃ bs, us = bs ++ vs ∧ AreBlanks bs := h ▸ exists_blanks us

theorem ValuesSpelled.succ {fuel : Nat} (hItems : ItemsSpelled fuel)
    (hMembers : MembersSpelled fuel) : ValuesSpelled (fuel + 1) := by
  intro us node rest h
  rw [value?] at h
  split at h
  · next hWord =>
    obtain ⟨bs, rfl, hBs⟩ := exists_of_skipBlanks hWord
    obtain ⟨rfl, rfl⟩ := Prod.mk.inj (Option.some.inj h)
    exact ⟨bs, _, rfl, hBs, .null⟩
  · next hWord =>
    obtain ⟨bs, rfl, hBs⟩ := exists_of_skipBlanks hWord
    obtain ⟨rfl, rfl⟩ := Prod.mk.inj (Option.some.inj h)
    exact ⟨bs, _, rfl, hBs, .yes⟩
  · next hWord =>
    obtain ⟨bs, rfl, hBs⟩ := exists_of_skipBlanks hWord
    obtain ⟨rfl, rfl⟩ := Prod.mk.inj (Option.some.inj h)
    exact ⟨bs, _, rfl, hBs, .no⟩
  · next hQuote =>
    obtain ⟨bs, rfl, hBs⟩ := exists_of_skipBlanks hQuote
    obtain ⟨⟨s, vs⟩, hString, hEq⟩ := Option.map_eq_some_iff.1 h
    obtain ⟨rfl, rfl⟩ := Prod.mk.inj hEq
    obtain ⟨pre, rfl, hPre⟩ := string?_eq_some_iff.1 hString
    exact ⟨bs, _, rfl, hBs, .string hPre⟩
  · next us' hOpen =>
    obtain ⟨bs, rfl, hBs⟩ := exists_of_skipBlanks hOpen
    split at h
    · next hClose =>
      obtain ⟨cs, rfl, hCs⟩ := exists_of_skipBlanks hClose
      obtain ⟨rfl, rfl⟩ := Prod.mk.inj (Option.some.inj h)
      exact ⟨bs, _, by simp, hBs, .emptyList hCs⟩
    · obtain ⟨⟨nodes, vs⟩, hRead, hEq⟩ := Option.map_eq_some_iff.1 h
      obtain ⟨rfl, rfl⟩ := Prod.mk.inj hEq
      rw [items?_skipBlanks] at hRead
      obtain ⟨pre, rfl, hPre⟩ := hItems _ _ _ hRead
      exact ⟨bs, _, rfl, hBs, .list hPre⟩
  · next us' hOpen =>
    obtain ⟨bs, rfl, hBs⟩ := exists_of_skipBlanks hOpen
    split at h
    · next hClose =>
      obtain ⟨cs, rfl, hCs⟩ := exists_of_skipBlanks hClose
      obtain ⟨rfl, rfl⟩ := Prod.mk.inj (Option.some.inj h)
      exact ⟨bs, _, by simp, hBs, .emptyRecord hCs⟩
    · obtain ⟨⟨members, vs⟩, hRead, hEq⟩ := Option.map_eq_some_iff.1 h
      obtain ⟨rfl, rfl⟩ := Prod.mk.inj hEq
      rw [members?_skipBlanks] at hRead
      obtain ⟨pre, rfl, hPre⟩ := hMembers _ _ _ hRead
      exact ⟨bs, _, rfl, hBs, .record hPre⟩
  · obtain ⟨bs, hUs, hBs⟩ := exists_blanks us
    obtain ⟨⟨t, vs⟩, hNumber, hEq⟩ := Option.map_eq_some_iff.1 h
    obtain ⟨rfl, rfl⟩ := Prod.mk.inj hEq
    obtain ⟨pre, hSkip, hPre⟩ := spellsNumber_of_number? hNumber
    rw [hSkip] at hUs
    exact ⟨bs, pre, hUs, hBs, .number hPre⟩

theorem ItemsSpelled.succ {fuel : Nat} (hValues : ValuesSpelled fuel) (hItems : ItemsSpelled fuel) :
    ItemsSpelled (fuel + 1) := by
  intro us nodes rest h
  rw [items?] at h
  split at h
  · cases h
  · next node vs hValue =>
    obtain ⟨bs, pre, rfl, hBs, hPre⟩ := hValues _ _ _ hValue
    split at h
    · next ws hComma =>
      obtain ⟨cs, rfl, hCs⟩ := exists_of_skipBlanks hComma
      obtain ⟨⟨nodes', vs⟩, hRead, hEq⟩ := Option.map_eq_some_iff.1 h
      obtain ⟨rfl, rfl⟩ := Prod.mk.inj hEq
      obtain ⟨pre', rfl, hRest⟩ := hItems _ _ _ hRead
      exact ⟨_, by simp, .item hBs hPre hCs hRest⟩
    · next hClose =>
      obtain ⟨cs, rfl, hCs⟩ := exists_of_skipBlanks hClose
      obtain ⟨rfl, rfl⟩ := Prod.mk.inj (Option.some.inj h)
      exact ⟨_, by simp, .lastItem hBs hPre hCs⟩
    · cases h

theorem MembersSpelled.succ {fuel : Nat} (hValues : ValuesSpelled fuel)
    (hMembers : MembersSpelled fuel) : MembersSpelled (fuel + 1) := by
  intro us members rest h
  rw [members?] at h
  split at h
  · next hQuote =>
    obtain ⟨bs, rfl, hBs⟩ := exists_of_skipBlanks hQuote
    split at h
    · cases h
    · next key vs hKey =>
      obtain ⟨ks, rfl, hKs⟩ := string?_eq_some_iff.1 hKey
      split at h
      · next hColon =>
        obtain ⟨cs, rfl, hCs⟩ := exists_of_skipBlanks hColon
        split at h
        · cases h
        · next node vs hValue =>
          obtain ⟨ds, pre, rfl, hDs, hPre⟩ := hValues _ _ _ hValue
          split at h
          · next hComma =>
            obtain ⟨es, rfl, hEs⟩ := exists_of_skipBlanks hComma
            obtain ⟨⟨members', vs⟩, hRead, hEq⟩ := Option.map_eq_some_iff.1 h
            obtain ⟨rfl, rfl⟩ := Prod.mk.inj hEq
            obtain ⟨pre', rfl, hRest⟩ := hMembers _ _ _ hRead
            exact ⟨_, by simp, .member hBs hKs hCs hDs hPre hEs hRest⟩
          · next hClose =>
            obtain ⟨es, rfl, hEs⟩ := exists_of_skipBlanks hClose
            obtain ⟨rfl, rfl⟩ := Prod.mk.inj (Option.some.inj h)
            exact ⟨_, by simp, .lastMember hBs hKs hCs hDs hPre hEs⟩
          · cases h
      · cases h
  · cases h

theorem spelled (fuel : Nat) : ValuesSpelled fuel ∧ ItemsSpelled fuel ∧ MembersSpelled fuel := by
  induction fuel with
  | zero => refine ⟨?_, ?_, ?_⟩ <;> intro us _ rest h <;> cases h
  | succ fuel ih =>
      obtain ⟨hValues, hItems, hMembers⟩ := ih
      exact ⟨.succ hItems hMembers, .succ hValues hItems, .succ hValues hMembers⟩

/-- **The reader accepts what the grammar derives, between blanks.** -/
theorem Node.read_eq_some_iff {us : Units} {node : Node} :
    Node.read us = some node ↔ ∃ bs pre cs, us = bs ++ (pre ++ cs) ∧ AreBlanks bs ∧ AreBlanks cs ∧
      Spells pre (.value node) := by
  constructor
  · intro h
    rw [Node.read] at h
    split at h
    · next node' rest hRead =>
      split at h
      · next hEmpty =>
        obtain rfl := Option.some.inj h
        obtain ⟨bs, pre, rfl, hBs, hPre⟩ := (spelled _).1 _ _ _ hRead
        exact ⟨bs, pre, rest, rfl, hBs, isEmpty_skipBlanks.1 hEmpty, hPre⟩
      · cases h
    · cases h
  · rintro ⟨bs, pre, cs, rfl, hBs, hCs, hPre⟩
    have hRead := hPre.readAs (2 * (bs ++ (pre ++ cs)).length + 2) cs
      (by simp only [List.length_append]; omega) fun _ _ => hCs.endsNumber
    rw [Node.read, value?_append hBs, hRead]
    simp only [isEmpty_skipBlanks.2 hCs, if_true]

theorem Spells.eq_nil_of_read {us vs : Units} {node : Node} (h : Spells (us ++ vs) (.value node))
    {members : List (Units × Node)} (hRead : Node.read us = some (.record members)) : vs = [] := by
  obtain ⟨bs, pre, cs, rfl, hBs, -, hPre⟩ := Node.read_eq_some_iff.1 hRead
  have hWhole := h.readAs (2 * (bs ++ (pre ++ cs) ++ vs).length) [] le_rfl fun _ _ =>
    areBlanks_nil.endsNumber
  have hRecord := hPre.readAs (2 * (bs ++ (pre ++ cs) ++ vs).length) (cs ++ vs)
    (by simp only [List.length_append]; omega) fun _ hEq => by cases hEq
  simp only [List.append_assoc, List.append_nil] at hWhole hRecord
  rw [value?_append hBs, hRecord] at hWhole
  exact (List.append_eq_nil_iff.1 (Prod.mk.inj (Option.some.inj hWhole)).2).2

end CoverRun.Json
