import Formula.Proofs.Grammar.Effect
import Formula.Proofs.Grammar.Grouping

/-!
From a run to a derivation: wherever the machine stands, the text behind it is the beginning of an expression, and its
levels are what was fed of it.
-/

namespace Formula

variable {α : Type} [Scalar α] {g : Grammar}

/-- A flat level that begins at `a` has come to `b` with the items `v`. -/
inductive Partial (g : Grammar) (a : List Char) : List (Item α) → Expecting → List Char → Prop
  | start : Partial g a [] (.operand false) a
  | complete {v : List (Item α)} {b : List Char} : Derives g true (.expression v) a b → Partial g a v .operator b
  | operator {v : List (Item α)} {o : BinOp} {b c : List Char} :
      Derives g true (.expression v) a b → Spaced b (o.symbol :: c) → Partial g a (v ++ [.op o]) (.operand false) c
  | sign {v : List (Item α)} {b c : List Char} :
      Partial g a v (.operand false) b → Spaced b ('-' :: c) → g.nameAt? ('-' :: c) = none → c.head? ≠ some ' ' →
      Partial g a (v ++ [.sign]) (.operand true) c

theorem Partial.unit {a b c : List Char} {v w : List (Item α)} (h : Partial g a v (.operand false) b)
    (hw : Derives g true (.unit w) b c) : Derives g true (.expression (v ++ w)) a c := by
  cases h with
  | start => exact .single hw
  | operator hv hs => simpa using Derives.more hv hs hw

theorem Partial.operand {a b c : List Char} {v : List (Item α)} {sign : Bool} {t : Term α}
    (h : Partial g a v (.operand sign) b) (ht : Derives g true (.primary t) b c) :
    Partial g a (v ++ [.operand t]) .operator c := by
  cases sign with
  | false => exact .complete (h.unit (.plain ht))
  | true =>
    cases h with
    | sign hv hs hn hb => exact .complete (by simpa using hv.unit (.minus hs (fun _ => hn) hb ht))

theorem Partial.derives {a b : List Char} {v : List (Item α)} (h : Partial g a v .operator b) :
    Derives g true (.expression v) a b := by
  cases h with
  | complete h => exact h

/-- The level that begins at `a` has come to `b`: each paren still open in it waits where an operand is due. -/
inductive Stands (g : Grammar) (a : List Char) : Level α → Expecting → List Char → Prop
  | flat {v : List (Item α)} {e : Expecting} {b : List Char} : Partial g a v e b → Stands g a (Level.feed {} v) e b
  | opened {l : Level α} {sign : Bool} {v : List (Item α)} {e : Expecting} {b c d : List Char} :
      Stands g a l (.operand sign) b → Spaced b ('(' :: c) → g.nameAt? ('(' :: c) = none → Partial g c v e d →
      Stands g a (l.openParen.feed v) e d

namespace Stands

variable {a b c : List Char} {l : Level α}

theorem take {i : Item α} {e e' : Expecting} (h : Stands g a l e b)
    (hi : ∀ k v, Partial g k v e b → Partial g k (v ++ [i]) e' c) : Stands g a (l.take i) e' c := by
  cases h with
  | @flat v _ _ hv =>
    rw [show (Level.feed {} v).take i = Level.feed {} (v ++ [i]) from (Level.feed_append _ v [i]).symm]
    exact .flat (hi a v hv)
  | @opened l _ v _ _ k _ hl hs hn hv =>
    rw [show (l.openParen.feed v).take i = l.openParen.feed (v ++ [i]) from (Level.feed_append _ v [i]).symm]
    exact .opened hl hs hn (hi k v hv)

theorem operand {sign : Bool} {t : Term α} (h : Stands g a l (.operand sign) b) (ht : Derives g true (.primary t) b c) :
    Stands g a (l.feed [.operand t]) .operator c := h.take fun _ _ hv => hv.operand ht

theorem operator {o : BinOp} (h : Stands g a l .operator b) (hs : Spaced b (o.symbol :: c)) :
    Stands g a (l.operator o) (.operand false) c := h.take fun _ _ hv => .operator hv.derives hs

theorem minus (h : Stands g a l (.operand false) b) (hs : Spaced b ('-' :: c)) (hn : g.nameAt? ('-' :: c) = none)
    (hc : c.head? ≠ some ' ') : Stands g a l.minus (.operand true) c := h.take fun _ _ hv => .sign hv hs hn hc

theorem openParen {sign : Bool} (h : Stands g a l (.operand sign) b) (hs : Spaced b ('(' :: c))
    (hn : g.nameAt? ('(' :: c) = none) : Stands g a l.openParen (.operand false) c := .opened h hs hn .start

theorem closeParen (h : Stands g a l .operator b) (ho : l.opened ≠ 0) (hs : Spaced b (')' :: c)) :
    Stands g a l.closeParen .operator c := by
  cases h with
  | @flat v _ _ hv => exact absurd (Level.opened_feed {} v) ho
  | opened hl hb hn hv =>
    obtain ⟨t, ht⟩ := hv.derives.groups
    rw [Level.closeParen_feed ht]
    exact hl.operand (.group hb (fun _ => hn) hv.derives ht hs)

theorem finish (h : Stands g a l .operator b) (ho : l.opened = 0) :
    ∃ v t, Derives g true (.expression v) a b ∧ Groups .sum v t ∧ l.finish = t.postorder := by
  cases h with
  | @flat v _ _ hv =>
    obtain ⟨t, ht⟩ := hv.derives.groups
    exact ⟨v, t, hv.derives, ht, Level.finish_feed ht⟩
  | @opened l _ v _ _ _ _ hl hb hn hv =>
    rw [Level.opened_feed] at ho
    exact absurd ho (Nat.succ_ne_zero _)

end Stands

/-- The text left to the innermost level: each suspended level waits where an operand is due, for a call whose word and
earlier arguments have been read. -/
inductive Waits (g : Grammar) (text : List Char) : List (Suspended α) → List Char → Prop
  | nil : Waits g text [] text
  | word {outer : List (Suspended α)} {l : Level α} {sign : Bool} {call : Call α} {a b c : List Char} :
      Waits g text outer a → Stands g a l (.operand sign) b → call.Starts →
      Spaced b (call.name.toList ++ '(' :: c) → g.nameAt? (call.name.toList ++ '(' :: c) = none →
      Waits g text (⟨l, call⟩ :: outer) c
  | base {outer : List (Suspended α)} {l : Level α} {sign : Bool} {v : List (Item α)} {t : Term α}
      {a b c d e : List Char} :
      Waits g text outer a → Stands g a l (.operand sign) b →
      Spaced b ("log".toList ++ '(' :: c) → g.nameAt? ("log".toList ++ '(' :: c) = none →
      Derives g true (.expression v) c d → Groups .sum v t → Spaced d (',' :: e) →
      Waits g text (⟨l, .logArgument t.postorder⟩ :: outer) e

namespace Machine

/-- What has been read of `text` so far is the beginning of an expression. -/
def Sound (g : Grammar) (text : List Char) (m : Machine α) : Prop :=
  ∃ a, Waits g text m.outer a ∧ Stands g a m.level m.expecting m.cursor.unread

theorem sound_start (g : Grammar) (text : List Char) : Sound (α := α) g text (.start (.ofList text)) :=
  ⟨text, .nil, .flat .start⟩

-- A call that begins leaves its level where an operand is due; the call that ends is that operand.
theorem sound_step {text : List Char} {m n : Machine α} (h : Sound g text m) (he : Effect g m n) : Sound g text n := by
  obtain ⟨a, hw, hs⟩ := h
  cases he with
  | leaf hsp hh hl => exact ⟨a, hw, hs.operand (.leaf hsp (fun _ => hh) hl)⟩
  | word hc hsp hn _ => exact ⟨_, .word hw hs hc hsp hn, .flat .start⟩
  | group hsp hn => exact ⟨a, hw, hs.openParen hsp hn⟩
  | minus hsp hn hb => exact ⟨a, hw, hs.minus hsp hn hb⟩
  | operator hsp => exact ⟨a, hw, hs.operator hsp⟩
  | close hsp ho => exact ⟨a, hw, hs.closeParen ho hsp⟩
  | unary hsp ho =>
    obtain ⟨v, t, hv, ht, hf⟩ := hs.finish ho
    rw [hf]
    cases hw with
    | word hw hl _ hb hn => exact ⟨_, hw, hl.operand (.call hb hn hv ht hsp)⟩
  | base hsp ho _ =>
    obtain ⟨v, t, hv, ht, hf⟩ := hs.finish ho
    rw [hf]
    cases hw with
    | word hw hl _ hb hn => exact ⟨_, .base hw hl hb hn hv ht hsp, .flat .start⟩
  | argument hsp ho =>
    obtain ⟨v, t, hv, ht, hf⟩ := hs.finish ho
    rw [hf]
    cases hw with
    | word _ _ hc _ _ => rcases hc with hc | ⟨f, hc⟩ <;> cases hc
    | base hw hl hb hn hu hg hm => exact ⟨_, hw, hl.operand (.log hb hn hu hg hm hv ht hsp)⟩

/-- A run that reads all of `text` ends with the postorder of its tree. -/
theorem reads_of_run {text : List Char} {s : Sequence α} {rest : Cursor}
    (h : run g (.start (.ofList text)) = .ok (s, rest)) (hr : rest.unread = []) :
    ∃ t, g.Reads true text t ∧ s = t.postorder := by
  obtain ⟨m, ⟨a, hw, hs⟩, hd⟩ := run_induct (fun _ _ hm hs => sound_step hm (effect_of_step hs)) (sound_start g text) h
  obtain ⟨⟨hn, ho, rfl⟩, he, hc, -⟩ := done_of_step hd
  rw [he, hc hr] at hs
  rw [hn] at hw
  cases hw
  obtain ⟨v, t, hv, ht, hf⟩ := hs.finish ho
  exact ⟨t, ⟨v, hv, ht⟩, hf⟩

end Machine

end Formula
