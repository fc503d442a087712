import Voxlib.Regex.Positions

/-!
# Recognition

parse_atom skips the backslash of an escape, and parse_escape_sequence one more if there is one.
-/

namespace Voxlib.Regex
open CStr

/- The pattern matches the texts of its language and no others. -/
def Recognised (e : Expr) : Prop :=
  ∀ re, compile e.text (lineFlags false) = some (some re) → ∀ text : Bytes,
    text.length < 2 ^ 32 - 1 → (regexMatch re text = true ↔ text ∈ e.lang)

theorem readsIn_whole {multiline : Bool} {text : Bytes} {l : Language UInt8} :
    readsIn multiline text (spelled l) 0 text.length ↔ text ∈ l := by
  rw [readsIn_spelled, List.drop_zero]
  constructor
  · rintro ⟨w, hw, hpre, hlen⟩
    have hwhole : w = text := hpre.eq_of_length (by omega)
    exact hwhole ▸ hw
  · intro htext
    exact ⟨text, htext, List.prefix_rfl, (Nat.zero_add _).symm⟩

theorem recognised_of_slash (e : Expr) (hok : e.Ok) (hplain : e.Plain)
    (hbraceless : e.All Quantifier.Braceless) (hslash : e.SlashOk true) : Recognised e := by
  intro re hre text hlen
  obtain ⟨re', hcompile, hmatch⟩ := compile_matches
    ⟨hok, hbraceless, Expr.Plain.flat hplain, hslash⟩ false
    (show text.length + 1 < 2 ^ 32 by omega)
  rw [hre] at hcompile
  obtain rfl := Option.some.inj (Option.some.inj hcompile)
  rw [hmatch, e.words_plain hplain hbraceless, readsIn_whole]

def choice : Expr :=
  .one (.more (.plain (.group true (.more (.one (.plain (.char 97)))
    (.one (.one (.repeated (.char 98) .star false)))))) (.one (.plain (.char 99))))

theorem choice_recognised : Recognised choice :=
  recognised_of_slash choice ⟨⟨rfl, rfl, trivial⟩, rfl⟩ ⟨⟨trivial, trivial⟩, trivial⟩
    ⟨⟨trivial, trivial, trivial⟩, trivial⟩ ⟨⟨trivial, trivial⟩, trivial⟩

def slashLetter : Expr := .one (.more (.plain (.escape 92)) (.one (.plain (.char 100))))

/-- It matches a digit. -/
theorem slash_letter_digit :
    ¬ ∀ e : Expr, e.Ok → e.Plain → e.All Quantifier.Braceless → Recognised e := by
  intro h
  have hdigit : (compile slashLetter.text (lineFlags false)).map (·.map (regexMatch · [53])) =
      some (some true) := by decide +kernel
  obtain ⟨found, hfound, hmap⟩ := Option.map_eq_some_iff.mp hdigit
  obtain ⟨re, rfl, hmatch⟩ := Option.map_eq_some_iff.mp hmap
  have hmem := (h slashLetter ⟨⟨by decide, by decide⟩, rfl⟩ ⟨trivial, trivial⟩ ⟨trivial, trivial⟩ re
    hfound [53] (by decide)).mp hmatch
  obtain ⟨u, ⟨c, hc, rfl⟩, v, ⟨d, hd, rfl⟩, heq⟩ := Language.mem_mul.mp hmem
  cases heq

end Voxlib.Regex
