import Mathlib.Data.List.TakeWhile
import MarkupEditor.Proofs.Parser.Progress
import MarkupEditor.Proofs.Parser.Runs
import MarkupEditor.Proofs.Printer.Sights

set_option autoImplicit false

namespace MarkupEditor

open Text MarkupEditor.Parser

namespace Parser

variable {ι σ : Type} (b : Builder ι σ) {run rest : List Char}

theorem textRun_none (stops : rest.head? = some '<' ∨ rest.head? = some '{') : textRun rest = [] := by
  cases rest with
  | nil => rfl
  | cons x rest => obtain h | h := stops <;> cases h <;> rfl

theorem run_textChild_none (stops : rest.head? = some '<' ∨ rest.head? = some '{') (pos : Nat) (store : σ) :
    textChild? b ⟨⟨rest, pos⟩, store⟩ = .ok ([], ⟨⟨rest, pos⟩, store⟩) := by
  rw [textChild?, run_bind_ok (run_here _), textRun_none stops]
  rfl

theorem run_textChild (filled : run ≠ []) (plain : ∀ x ∈ run, x ∉ ['<', '>', '{', '}'])
    (stops : rest.head? = some '<' ∨ rest.head? = some '{') (pos : Nat) (store : σ) :
    let made := b.alloc (.text (String.ofList (decodeReferences run)) (some (String.ofList run)))
      ⟨pos, pos + byteLength run⟩ store
    textChild? b ⟨⟨run ++ rest, pos⟩, store⟩ =
      .ok ([made.1], ⟨⟨rest, pos + byteLength run⟩, made.2⟩) := by
  obtain ⟨hrun, clean⟩ := textRun_plain plain (textRun_none stops)
  have none : run.dropWhile (fun c => (textReference? c).isNone) = [] := by
    rw [List.dropWhile_eq_nil_iff]
    intro x hx
    rw [clean x hx]
    rfl
  intro made
  have child : textChild b run ⟨⟨run ++ rest, pos⟩, store⟩ =
      .ok (made.1, ⟨⟨rest, pos + byteLength run⟩, made.2⟩) := by
    rw [textChild, run_bind_ok (run_here _), none]
    simp only [List.drop_left]
    rfl
  rw [textChild?, run_bind_ok (run_here _), hrun,
    if_neg (by rwa [List.isEmpty_iff]), run_bind_ok child]
  rfl

theorem run_children (filled : run ≠ []) (plain : ∀ x ∈ run, x ∉ ['<', '>', '{', '}'])
    (stops : rest.head? = some '<' ∨ rest.head? = some '{') (depth pos : Nat) (store : σ) :
    let made := b.alloc (.text (String.ofList (decodeReferences run)) (some (String.ofList run)))
      ⟨pos, pos + byteLength run⟩ store
    children b (depth + 1) ⟨⟨run ++ rest, pos⟩, store⟩ =
      ((made.1 :: ·) <$> children b (depth + 1) : Parser σ (List ι)) ⟨⟨rest, pos + byteLength run⟩, made.2⟩ := by
  intro made
  have text : textChild? b ⟨⟨run ++ rest, pos⟩, store⟩ =
      .ok ([made.1], ⟨⟨rest, pos + byteLength run⟩, made.2⟩) := run_textChild b filled plain stops pos store
  have none := run_textChild_none b stops (pos + byteLength run) made.2
  rw [children, run_bind_ok text, map_bind, run_bind_ok none, run_bind_ok (run_here _), map_bind,
    run_bind_ok (run_here _)]
  cases rest with
  | nil => rfl
  | cons x rest =>
    simp only
    split
    · simp
    · split
      · simp
      · simp

theorem run_attributeValue {inner : List Char} (plain : '"' ∉ inner) (depth pos : Nat) (store : σ) :
    let raw := '"' :: inner ++ ['"']
    let made := b.alloc (.literal (.string (String.ofList (decodeReferences inner))) (some (String.ofList raw)))
      ⟨pos, pos + byteLength raw⟩ store
    attributeValue b (depth + 1) ⟨⟨raw ++ rest, pos⟩, store⟩ =
      .ok (made.1, ⟨⟨rest, pos + byteLength raw⟩, made.2⟩) := by
  obtain ⟨htake, hdrop⟩ := takeWhile_upTo plain rest
  intro raw made
  have hraw : raw ++ rest = '"' :: (inner ++ '"' :: rest) := by simp [raw]
  rw [hraw, attributeValue, run_bind_ok (run_here _)]
  simp only [true_or, if_true]
  rw [attributeString, run_bind_ok (run_here _), htake, hdrop]
  rfl

end Parser

/-- What is written with an escape holds no character that ends its place, and decodes to what it was written
for. So an escaped text before a tag or a brace is one child, with the children behind it read as if they
stood alone, and an escaped string between double quotes is one literal. -/
theorem escaped_read {ι σ : Type} (b : Builder ι σ) (v : String) :
    (∀ x ∈ escapeText v.toList, x ∉ ['<', '>', '{', '}']) ∧ decodeReferences (escapeText v.toList) = v.toList ∧
    '"' ∉ escapeAttribute v.toList ∧ decodeReferences (escapeAttribute v.toList) = v.toList ∧
    (v ≠ "" → ∀ suffix : List Char, suffix.head? = some '<' ∨ suffix.head? = some '{' →
      ∀ (depth pos : Nat) (store : σ),
      let raw := escapeText v.toList
      let stop := pos + byteLength raw
      let made := b.alloc (.text v (some (String.ofList raw))) ⟨pos, stop⟩ store
      textChild? b ⟨⟨raw ++ suffix, pos⟩, store⟩ = .ok ([made.1], ⟨⟨suffix, stop⟩, made.2⟩) ∧
      textChild? b ⟨⟨suffix, stop⟩, made.2⟩ = .ok ([], ⟨⟨suffix, stop⟩, made.2⟩) ∧
      children b (depth + 1) ⟨⟨raw ++ suffix, pos⟩, store⟩ =
        ((made.1 :: ·) <$> children b (depth + 1) : Parser σ (List ι)) ⟨⟨suffix, stop⟩, made.2⟩) ∧
    ∀ (suffix : List Char) (depth pos : Nat) (store : σ),
      let raw := '"' :: escapeAttribute v.toList ++ ['"']
      let stop := pos + byteLength raw
      let made := b.alloc (.literal (.string v) (some (String.ofList raw))) ⟨pos, stop⟩ store
      attributeValue b (depth + 1) ⟨⟨raw ++ suffix, pos⟩, store⟩ = .ok (made.1, ⟨⟨suffix, stop⟩, made.2⟩) := by
  have decodedText : String.ofList (decodeReferences (escapeText v.toList)) = v := by
    rw [decode_escapeText, String.ofList_toList]
  have decodedString : String.ofList (decodeReferences (escapeAttribute v.toList)) = v := by
    rw [decode_escapeAttribute, String.ofList_toList]
  refine ⟨fun x => escapeText_clean, decode_escapeText _, escapeAttribute_clean, decode_escapeAttribute _,
    fun some suffix stops depth pos store => ?_, fun suffix depth pos store => ?_⟩
  · have filled : escapeText v.toList ≠ [] :=
      escapeText_ne_nil fun none => some (String.toList_eq_nil_iff.1 none)
    have child := run_textChild b filled (fun x => escapeText_clean) stops pos store
    have others := run_children b filled (fun x => escapeText_clean) stops depth pos store
    rw [decodedText] at child others
    exact ⟨child, run_textChild_none b stops _ _, others⟩
  · have plain : '"' ∉ escapeAttribute v.toList := escapeAttribute_clean
    have literal := @run_attributeValue ι σ b suffix _ plain depth pos store
    rw [decodedString] at literal
    exact literal

/-- A value that is a reference itself, as a text before a closing tag and as a string in a tag. -/
theorem escaped_read_reference :
    children nested 1 ⟨⟨"&amp;lt;</p>".toList, 0⟩, ()⟩ =
      .ok ([shapeAt (.text "&lt;" (some "&amp;lt;")) 0 8], ⟨⟨"</p>".toList, 8⟩, ()⟩) ∧
    attributeValue nested 1 ⟨⟨"\"&amp;lt;\">".toList, 0⟩, ()⟩ =
      .ok (shapeAt (.literal (.string "&lt;") (some "\"&amp;lt;\"")) 0 10, ⟨⟨['>'], 10⟩, ()⟩) := by
  obtain ⟨-, -, -, -, text, string⟩ := escaped_read nested "&lt;"
  obtain ⟨-, -, child⟩ := text (by decide) "</p>".toList (.inl rfl) 0 0 ()
  exact ⟨child, string ['>'] 0 0 ()⟩

/-- A literal that is written for a value is one token up to its closing quote, whatever stands behind it, and
has that value. -/
theorem quoted_read (v : String) (rest : List Char) (pos : Nat) :
    (⟨quote v.toList ++ rest, pos⟩ : Cursor).sight? =
      some ⟨[], some (.string (String.ofList (quote v.toList))), quote v.toList,
        ⟨quote v.toList ++ rest, pos⟩, ⟨rest, pos + byteLength (quote v.toList)⟩⟩ ∧
    unquote (quote v.toList) = v.toList := by
  refine ⟨?_, unquote_quote _⟩
  rw [Cursor.sight?, Lexeme.next?_quote]
  rfl

end MarkupEditor
