import MarkupEditor.Proofs.Parser.Readings

set_option autoImplicit false

namespace MarkupEditor.Parser

variable {ι σ α β : Type} (s : State σ)

@[simp] theorem run_pure (a : α) : (pure a : Parser σ α) s = .ok (a, s) := rfl

@[simp] theorem run_throw (e : Stop) : (throw e : Parser σ α) s = .error e := rfl

@[simp] theorem run_refuse (e : ParseError) : (refuse e : Parser σ α) s = .error (.refused e) := rfl

theorem run_bind (p : Parser σ α) (f : α → Parser σ β) :
    (p >>= f) s = match p s with
      | .ok (a, t) => f a t
      | .error e => .error e := by
  change Except.bind (p s) (fun x => f x.1 x.2) = _
  cases p s <;> rfl

theorem run_bind_ok {s t : State σ} {p : Parser σ α} {f : α → Parser σ β} {a : α}
    (h : p s = .ok (a, t)) : (p >>= f) s = f a t := by
  rw [run_bind, h]

theorem run_bind_error {s : State σ} {p : Parser σ α} {f : α → Parser σ β} {e : Stop}
    (h : p s = .error e) : (p >>= f) s = .error e := by
  rw [run_bind, h]

@[simp] theorem run_here : (here : Parser σ Cursor) s = .ok (s.cursor, s) := rfl

@[simp] theorem run_peek : (peek : Parser σ (Option Sight)) s = .ok (s.cursor.sight?, s) := rfl

@[simp] theorem run_moveTo (c : Cursor) : (moveTo c : Parser σ Unit) s = .ok ((), { s with cursor := c }) :=
  rfl

@[simp] theorem run_sees (mark : Punctuator) :
    (sees mark : Parser σ Bool) s = .ok ((s.cursor.mark? mark).isSome, s) := rfl

theorem run_accept_some {s : State σ} {mark : Punctuator} {sight : Sight}
    (h : s.cursor.mark? mark = some sight) :
    (accept mark : Parser σ Bool) s = .ok (true, { s with cursor := sight.stop }) := by
  rw [accept, run_bind_ok (run_here s), h]
  rfl

theorem run_accept_none {s : State σ} {mark : Punctuator} (h : s.cursor.mark? mark = none) :
    (accept mark : Parser σ Bool) s = .ok (false, s) := by
  rw [accept, run_bind_ok (run_here s), h]
  rfl

theorem run_expect_some {s : State σ} {mark : Punctuator} {sight : Sight}
    (h : s.cursor.mark? mark = some sight) :
    (expect mark : Parser σ Sight) s = .ok (sight, { s with cursor := sight.stop }) := by
  rw [expect, run_bind_ok (run_here s), h]
  rfl

theorem run_acceptSeparator_some {s : State σ} {closing : Punctuator} {next : Cursor}
    (h : s.cursor.separator? closing = some next) :
    (acceptSeparator closing : Parser σ Bool) s = .ok (true, { s with cursor := next }) := by
  rw [acceptSeparator, run_bind_ok (run_here s), h]
  rfl

theorem run_acceptSeparator_none {s : State σ} {closing : Punctuator}
    (h : s.cursor.separator? closing = none) :
    (acceptSeparator closing : Parser σ Bool) s = .ok (false, s) := by
  rw [acceptSeparator, run_bind_ok (run_here s), h]
  rfl

theorem run_expectName {s : State σ} {name expected : String} {c : Cursor}
    (h : ReadsName s.cursor name c) :
    (expectName expected : Parser σ String) s = .ok (name, { s with cursor := c }) := by
  obtain ⟨seen, named⟩ := h
  rw [expectName, run_bind_ok (run_peek s), seen]
  simp only [named]
  rfl

theorem run_readNumber {s : State σ} {raw : String} {span : Span} {value : Binary64}
    (h : numberValue? raw.toList = some value) :
    (readNumber raw span : Parser σ Binary64) s = .ok (value, s) := by
  rw [readNumber, h]
  rfl

end MarkupEditor.Parser
