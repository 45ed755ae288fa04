import Mathlib
import Aggregation.Aggregate
import Aggregation.Proofs.Text.Casing

set_option autoImplicit false

namespace Aggregation.Aggregate

open Text

theorem name_solid (aggregate : Aggregate) : ∀ c ∈ aggregate.name.toList, isBlank c = false := by
  have solid : aggregate.name.toList.all (fun c => !isBlank c) = true := by
    cases aggregate with
    | confidence level => cases level <;> decide +kernel
    | _ => decide +kernel
  exact fun c inside => (Bool.not_eq_true' _).mp (List.all_eq_true.mp solid c inside)

theorem name_capital (aggregate : Aggregate) :
    aggregate.name.toList.map Char.toUpper = aggregate.name.toList := by
  cases aggregate with
  | confidence level => cases level <;> decide +kernel
  | _ => decide +kernel

theorem named_name (aggregate : Aggregate) : named? aggregate.name = some aggregate := by
  cases aggregate with
  | confidence level => cases level <;> decide +kernel
  | _ => decide +kernel

theorem rest_of_beginning (beginning word rest : List Char) (found : beginning.isPrefixOf? word = some rest) :
    word = beginning ++ rest := by
  induction beginning generalizing word with
  | nil => exact Option.some.inj found
  | cons c beginning ih =>
      cases word with
      | nil => cases found
      | cons d word =>
          rw [List.isPrefixOf?] at found
          split at found
          next same => rw [ih word found, beq_iff_eq.mp same, List.cons_append]
          next => cases found

theorem percent_of_found (chars : List Char) (level : ConfidenceLevel)
    (found : ConfidenceLevel.ofPercent? chars = some level) : level.percent.toList = chars := by
  have same := List.find?_some found
  exact beq_iff_eq.mp same

theorem name_of_named (word : String) (aggregate : Aggregate) (found : named? word = some aggregate) :
    word = aggregate.name := by
  unfold named? at found
  split at found
  case h_15 =>
    obtain ⟨percent, left, right⟩ := Option.bind_eq_some_iff.mp found
    obtain ⟨level, same, rfl⟩ := Option.map_eq_some_iff.mp right
    rw [name, ← String.toList_inj, String.toList_append, percent_of_found percent level same]
    exact rest_of_beginning _ _ _ left
  all_goals
    cases found
    rfl

def Spells (text : String) (aggregate : Aggregate) : Prop :=
  ∃ before word after, text.toList = before ++ word ++ after ∧ (∀ c ∈ before, isBlank c = true) ∧
    (∀ c ∈ after, isBlank c = true) ∧ List.Forall₂ SameLetter word aggregate.name.toList

theorem spells_iff (text : String) (aggregate : Aggregate) :
    Spells text aggregate ↔ (stripped text).map Char.toUpper = aggregate.name.toList := by
  rw [← name_capital, ← same_letters_iff]
  constructor
  · rintro ⟨before, word, after, split, first, last, letters⟩
    have solid : ∀ c ∈ word, isBlank c = false := by
      intro c inside
      have capital : c.toUpper ∈ aggregate.name.toList := by
        rw [← name_capital, ← (same_letters_iff _ _).mp letters]
        exact List.mem_map_of_mem inside
      have same := (same_letter_iff c c.toUpper).mpr (Char.toUpper_toUpper_eq_toUpper c).symm
      exact same_letter_solid c _ same (name_solid aggregate _ capital)
    rwa [stripped_of_parts text before word after split first last solid]
  · intro letters
    obtain ⟨before, after, split, first, last⟩ := stripped_parts text
    exact ⟨before, _, after, split, first, last, letters⟩

theorem named_iff (word : String) (aggregate : Aggregate) :
    named? word = some aggregate ↔ word = aggregate.name := by
  constructor
  · exact name_of_named word aggregate
  · rintro rfl
    exact named_name aggregate

theorem parse_ok_iff (text : String) (aggregate : Aggregate) :
    parse text = .ok aggregate ↔ Spells text aggregate := by
  have word := named_iff (String.ofList ((stripped text).map Char.toUpper)) aggregate
  rw [← String.toList_inj, String.toList_ofList] at word
  rw [spells_iff, ← word, parse]
  cases named? (String.ofList ((stripped text).map Char.toUpper)) with
  | none => simp
  | some found => simp

theorem parse_error (text : String) (failure : UnknownAggregate) (failed : parse text = .error failure) :
    failure = ⟨text⟩ := by
  rw [parse] at failed
  split at failed
  next => cases failed
  next => exact (Except.error.inj failed).symm

theorem name_spells (aggregate : Aggregate) : Spells aggregate.name aggregate := by
  refine ⟨[], _, [], (List.append_nil _).symm, fun c inside => ?_, fun c inside => ?_, ?_⟩
  · cases inside
  · cases inside
  · exact (same_letters_iff _ _).mpr rfl

def rewritten (text : String) : Except UnknownAggregate String :=
  (parse text).map name

/-- A text is read as an aggregate just if it spells the name of it, and a failure holds any other text as it was
given. What is read and written again is the name, which a second time does not change. -/
theorem parse_exact (text : String) :
    (∀ aggregate, parse text = .ok aggregate ↔ Spells text aggregate) ∧
      (∀ aggregate other, Spells text aggregate → Spells text other → aggregate = other) ∧
      ((∀ aggregate, ¬Spells text aggregate) ↔ parse text = .error ⟨text⟩) ∧
      (∀ failure, parse text = .error failure →
        failure = ⟨text⟩ ∧ failure.message = "unknown aggregate: " ++ text) ∧
      (∀ aggregate, parse aggregate.name = .ok aggregate) ∧
      ∀ word, rewritten text = .ok word →
        (∃ aggregate, Spells text aggregate ∧ word = aggregate.name) ∧ rewritten word = .ok word := by
  have named (aggregate : Aggregate) : parse aggregate.name = .ok aggregate :=
    (parse_ok_iff _ _).mpr (name_spells aggregate)
  refine ⟨parse_ok_iff text, fun aggregate other left right => ?_,
    ⟨fun unread => ?_, fun failed aggregate spells => ?_⟩, fun failure failed => ?_, named, fun word written => ?_⟩
  · rw [← parse_ok_iff] at left right
    exact Except.ok.inj (left.symm.trans right)
  · cases read : parse text with
    | ok aggregate => exact absurd ((parse_ok_iff text aggregate).mp read) (unread aggregate)
    | error failure => rw [parse_error text failure read]
  · rw [← parse_ok_iff, failed] at spells
    cases spells
  · obtain rfl := parse_error text failure failed
    exact ⟨rfl, rfl⟩
  · cases read : parse text with
    | error failure =>
        rw [rewritten, read] at written
        cases written
    | ok aggregate =>
        rw [rewritten, read] at written
        cases written
        refine ⟨⟨aggregate, (parse_ok_iff text aggregate).mp read, rfl⟩, ?_⟩
        rw [rewritten, named]
        rfl

-- A name in mixed case between two kinds of white space, and one whose first letter only looks like an S.
theorem parse_exact_spelled :
    let text := " \tconf_Int_99_5\u3000"
    Spells text (.confidence .p995) ∧ parse text = .ok (.confidence .p995) ∧
      rewritten text = .ok "CONF_INT_99_5" ∧ rewritten "CONF_INT_99_5" = .ok "CONF_INT_99_5" ∧
      (∀ aggregate, ¬Spells "\u017fum" aggregate) ∧ parse "\u017fum" = .error ⟨"\u017fum"⟩ := by
  intro text
  obtain ⟨read, _, _, _, _, again⟩ := parse_exact text
  obtain ⟨_, _, unread, _⟩ := parse_exact "\u017fum"
  have spells : Spells text (.confidence .p995) :=
    ⟨" \t".toList, "conf_Int_99_5".toList, "\u3000".toList, by decide +kernel,
      List.all_eq_true.mp (by decide +kernel), List.all_eq_true.mp (by decide +kernel),
      (same_letters_iff _ _).mpr (by decide +kernel)⟩
  have accepted := (read _).mpr spells
  have written : rewritten text = .ok "CONF_INT_99_5" := by
    rw [rewritten, accepted]
    rfl
  have refused : parse "\u017fum" = .error ⟨"\u017fum"⟩ := by decide +kernel
  exact ⟨spells, accepted, written, (again _ written).2, unread.mpr refused, refused⟩

end Aggregation.Aggregate
