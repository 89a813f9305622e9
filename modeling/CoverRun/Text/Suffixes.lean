/-!
# Tables over the suffixes of a text

A table holds for each suffix of a text, the whole text first and the empty one last, whether
something is true of it. A matcher that fills the table of a pattern from that of the pattern
without its first piece takes a time that grows with the product of both lengths, however many ways
there are to split the text.
-/

namespace CoverRun

/-- The suffixes of a text, the longest first. -/
def suffixes : List Char → List (List Char)
  | [] => [[]]
  | c :: cs => (c :: cs) :: suffixes cs

namespace Suffixes

/-- The table of what begins with one character that is right and goes on as a table says. -/
def afterOne (isRight : Char → Bool) : List Char → List Bool → List Bool
  | c :: cs, _ :: table => (isRight c && table.headD false) :: afterOne isRight cs table
  | _, _ => [false]

/-- The table of what begins with a run of characters that are right, none included, and goes on as
a table says. -/
def afterRun (isRight : Char → Bool) : List Char → List Bool → List Bool
  | c :: cs, b :: table =>
    let later := afterRun isRight cs table
    (b || (isRight c && later.headD false)) :: later
  | _, table => table

/-- The table that is true at the empty suffix alone. -/
def empty (cs : List Char) : List Bool := cs.foldr (fun _ table => false :: table) [true]

theorem headD_map_suffixes (f : List Char → Bool) (cs : List Char) (b : Bool) :
    ((suffixes cs).map f).headD b = f cs := by
  cases cs <;> rfl

theorem empty_eq (cs : List Char) : empty cs = (suffixes cs).map List.isEmpty := by
  induction cs with
  | nil => rfl
  | cons c cs ih => simpa [empty, suffixes] using ih

theorem afterOne_map {isRight : Char → Bool} {f g : List Char → Bool} (hnil : g [] = false)
    (hcons : ∀ c cs, g (c :: cs) = (isRight c && f cs)) (cs : List Char) :
    afterOne isRight cs ((suffixes cs).map f) = (suffixes cs).map g := by
  induction cs with
  | nil => simp [afterOne, suffixes, hnil]
  | cons c cs ih =>
      simp only [suffixes, List.map_cons, afterOne, hcons, ih, headD_map_suffixes]

theorem afterRun_map {isRight : Char → Bool} {f g : List Char → Bool} (hnil : g [] = f [])
    (hcons : ∀ c cs, g (c :: cs) = (f (c :: cs) || (isRight c && g cs))) (cs : List Char) :
    afterRun isRight cs ((suffixes cs).map f) = (suffixes cs).map g := by
  induction cs with
  | nil => simp [afterRun, suffixes, hnil]
  | cons c cs ih =>
      simp only [suffixes, List.map_cons, afterRun, hcons, ih, headD_map_suffixes]

end Suffixes

end CoverRun
