import DomainAtlas.Text.Quoted

/-! # What stands between quotes

`Means body value` says that `body` may stand between quotes and what it means there: a character means itself, or a
backslash and the character behind it mean one together. `readBody` finds the quote that closes just such a body.
A body may be closed without meaning anything, when it has a backslash before a character that none may stand before.
-/
set_option autoImplicit false

namespace DomainAtlas.Text.Quoted

inductive Means : List Char → List Char → Prop
  | nil : Means [] []
  | plain {c : Char} {body value : List Char} (hQuote : c ≠ '"') (hBackslash : c ≠ '\\')
      (hLine : ¬ (c = '\n' ∨ c = '\r')) (hRest : Means body value) : Means (c :: body) (c :: value)
  | escape {e c : Char} {body value : List Char} (hMeant : unescape? e = some c) (hRest : Means body value) :
      Means ('\\' :: e :: body) (c :: value)

theorem push_eq_closed {body : Body} {c : Char} {slice value written rest : List Char} :
    body.push c slice = .closed value written rest ↔
      ∃ others more, body = .closed others more rest ∧ value = c :: others ∧ written = slice ++ more := by
  cases body <;> simp [Body.push, eq_comm, and_comm, and_assoc]

theorem Means.readBody {body value : List Char} (h : Means body value) (rest : List Char) :
    readBody (body ++ '"' :: rest) = .closed value (body ++ ['"']) rest := by
  induction h with
  | nil =>
    rw [List.nil_append, readBody.eq_def]
    rfl
  | plain hQuote hBackslash hLine _ ih =>
    rw [List.cons_append, readBody.eq_def]
    simp only [if_neg hQuote, if_neg hBackslash, if_neg hLine, ih, Body.push]
    rfl
  | escape hMeant _ ih =>
    rw [List.cons_append, List.cons_append, readBody.eq_def]
    simp [hMeant, ih, Body.push]

theorem means_of_readBody {cs value written rest : List Char} (h : readBody cs = .closed value written rest) :
    ∃ body, Means body value ∧ written = body ++ ['"'] ∧ cs = body ++ '"' :: rest := by
  fun_induction Quoted.readBody cs generalizing value written with
  | case1 => cases h
  | case2 cs =>
    cases h
    exact ⟨[], .nil, rfl, rfl⟩
  | case3 => cases h
  | case4 e after meant hMeant hQuote ih =>
    obtain ⟨others, more, hBody, rfl, rfl⟩ := push_eq_closed.mp h
    obtain ⟨body, hMeans, rfl, rfl⟩ := ih hBody
    exact ⟨'\\' :: e :: body, .escape hMeant hMeans, rfl, rfl⟩
  | case5 => cases h
  | case6 => cases h
  | case7 c after hQuote hBackslash hLine ih =>
    obtain ⟨others, more, hBody, rfl, rfl⟩ := push_eq_closed.mp h
    obtain ⟨body, hMeans, rfl, rfl⟩ := ih hBody
    exact ⟨c :: body, .plain hQuote hBackslash hLine hMeans, rfl, rfl⟩

/-- A character stands for itself, or a backslash stands before the one that means it. -/
theorem escape_cases (c : Char) :
    (escape c = [c] ∧ c ≠ '"' ∧ c ≠ '\\' ∧ c ≠ '\n' ∧ c ≠ '\r') ∨
      ∃ e, escape c = ['\\', e] ∧ unescape? e = some c := by
  unfold escape
  split
  · rename_i h
    exact Or.inr ⟨'\\', rfl, by simp [unescape?, h]⟩
  · split
    · rename_i h
      exact Or.inr ⟨'"', rfl, by simp [unescape?, h]⟩
    · split
      · rename_i h
        exact Or.inr ⟨'n', rfl, by simp [unescape?, h]⟩
      · split
        · rename_i h
          exact Or.inr ⟨'r', rfl, by simp [unescape?, h]⟩
        · split
          · rename_i h
            exact Or.inr ⟨'t', rfl, by simp [unescape?, h]⟩
          · exact Or.inl ⟨rfl, by assumption, by assumption, by assumption, by assumption⟩

theorem Means.append {body value more others : List Char} (h : Means body value) (hMore : Means more others) :
    Means (body ++ more) (value ++ others) := by
  induction h with
  | nil => exact hMore
  | plain hQuote hBackslash hLine _ ih => exact .plain hQuote hBackslash hLine ih
  | escape hMeant _ ih => exact .escape hMeant ih

theorem means_body (cs : List Char) : Means (body cs) cs := by
  induction cs with
  | nil => exact .nil
  | cons c cs ih =>
    suffices hEscape : Means (escape c) [c] from hEscape.append ih
    rcases escape_cases c with ⟨hEscape, hQuote, hBackslash, hNewline, hReturn⟩ | ⟨e, hEscape, hMeant⟩
    · rw [hEscape]
      exact .plain hQuote hBackslash (not_or.mpr ⟨hNewline, hReturn⟩) .nil
    · rw [hEscape]
      exact .escape hMeant .nil

/-- What is written between quotes stays on one line. -/
theorem not_break_of_mem_body {cs : List Char} {c : Char} (h : c ∈ body cs) : c ≠ '\n' ∧ c ≠ '\r' := by
  obtain ⟨d, -, hc⟩ := List.mem_flatMap.mp h
  rcases escape_cases d with ⟨hEscape, -, -, hNewline, hReturn⟩ | ⟨e, hEscape, hMeant⟩
  · rw [hEscape, List.mem_singleton] at hc
    rw [hc]
    exact ⟨hNewline, hReturn⟩
  · rw [hEscape, List.mem_cons, List.mem_singleton] at hc
    rcases hc with rfl | rfl
    · decide
    · constructor <;> (rintro rfl; cases hMeant)

theorem not_break_of_mem_quote {text : String} {c : Char} (h : c ∈ (quote text).toList) : c ≠ '\n' ∧ c ≠ '\r' := by
  rw [quote, String.toList_ofList, quoteChars, List.mem_cons, List.mem_append, List.mem_singleton] at h
  rcases h with rfl | hBody | rfl
  · decide
  · exact not_break_of_mem_body hBody
  · decide

/-! ## Invalid escapes -/

/-- Text on one line with a backslash before each of its quotes. -/
inductive Enclosed : List Char → Prop
  | nil : Enclosed []
  | plain {c : Char} {body : List Char} (hQuote : c ≠ '"') (hBackslash : c ≠ '\\') (hLine : ¬ (c = '\n' ∨ c = '\r'))
      (hRest : Enclosed body) : Enclosed (c :: body)
  | pair {e : Char} {body : List Char} (hLine : ¬ (e = '\n' ∨ e = '\r')) (hRest : Enclosed body) :
      Enclosed ('\\' :: e :: body)

theorem Enclosed.not_newline {body : List Char} (h : Enclosed body) : '\n' ∉ body := by
  induction h with
  | nil => exact List.not_mem_nil
  | plain _ _ hLine _ ih =>
    rw [List.mem_cons, not_or]
    exact ⟨fun hEq => hLine (.inl hEq.symm), ih⟩
  | pair hLine _ ih =>
    rw [List.mem_cons, not_or, List.mem_cons, not_or]
    exact ⟨by decide, fun hEq => hLine (.inl hEq.symm), ih⟩

/-- A body that means nothing has a first invalid escape. -/
theorem Enclosed.means_or_invalid {body : List Char} (h : Enclosed body) :
    (∃ value, Means body value) ∨ ∃ front value e others, body = front ++ '\\' :: e :: others ∧ Means front value ∧
      unescape? e = none ∧ '\n' ∉ e :: others := by
  induction h with
  | nil => exact .inl ⟨[], .nil⟩
  | @plain c body hQuote hBackslash hLine _ ih =>
    rcases ih with ⟨value, hValue⟩ | ⟨front, value, e, others, rfl, hFront, hInvalid, hOthers⟩
    · exact .inl ⟨c :: value, .plain hQuote hBackslash hLine hValue⟩
    · exact .inr ⟨c :: front, c :: value, e, others, rfl, .plain hQuote hBackslash hLine hFront, hInvalid, hOthers⟩
  | @pair e body hLine hRest ih =>
    cases hMeant : unescape? e with
    | none =>
      refine .inr ⟨[], [], e, body, rfl, .nil, hMeant, ?_⟩
      rw [List.mem_cons, not_or]
      exact ⟨fun hEq => hLine (.inl hEq.symm), hRest.not_newline⟩
    | some c =>
      rcases ih with ⟨value, hValue⟩ | ⟨front, value, d, others, rfl, hFront, hInvalid, hOthers⟩
      · exact .inl ⟨c :: value, .escape hMeant hValue⟩
      · exact .inr ⟨'\\' :: e :: front, c :: value, d, others, rfl, .escape hMeant hFront, hInvalid, hOthers⟩

theorem Means.readBody_badEscape {front value : List Char} {e : Char} (h : Means front value)
    (hInvalid : unescape? e = none) (rest : List Char) :
    Quoted.readBody (front ++ '\\' :: e :: rest) = .badEscape front (e :: rest) := by
  induction h with
  | nil =>
    rw [List.nil_append, Quoted.readBody.eq_def]
    simp [hInvalid]
  | plain hQuote hBackslash hLine _ ih =>
    rw [List.cons_append, Quoted.readBody.eq_def]
    simp only [if_neg hQuote, if_neg hBackslash, if_neg hLine, ih, Body.push]
    rfl
  | escape hMeant _ ih =>
    rw [List.cons_append, List.cons_append, Quoted.readBody.eq_def]
    simp [hMeant, ih, Body.push]

end DomainAtlas.Text.Quoted
