import Mathlib.Data.List.Basic
import Formula.Proofs.Built
import Formula.Proofs.Rendering.Piece

/-!
Evaluation against printing. Evaluation takes what is left on top of the stack, printing accepts nothing but a single
piece, and a variable may be replaced by any token, an operator too. Still the two agree on all that can be assembled:
no level of it leaves more than one operand over, so a run that finds every operand ends with exactly one.
-/

namespace Formula

variable {α : Type}

namespace Sequence

/-- How many operands the tokens take off the stack, those inside arguments not counted. -/
def pops : Sequence α → Nat
  | [] => 0
  | t :: ts => t.arity + pops ts

/-- At every level the results, one for each token, outnumber the operands taken by one at most. -/
def Frugal (s : Sequence α) : Prop := ∀ u, Within u s → u.length ≤ u.pops + 1

theorem pops_append (s t : Sequence α) : pops (s ++ t) = pops s + pops t := by
  induction s with
  | nil => exact (Nat.zero_add _).symm
  | cons u s ih => rw [List.cons_append, pops, pops, ih, Nat.add_assoc]

theorem height_pops {s : Sequence α} {n m : Nat} (h : s.height n = some m) : m + s.pops = n + s.length := by
  induction s generalizing n with
  | nil =>
    obtain rfl := Option.some.inj h
    rfl
  | cons t ts ih =>
    simp only [height, Option.ite_none_right_eq_some] at h
    obtain ⟨ht, hts⟩ := h
    have := ih hts
    rw [pops, List.length_cons]
    omega

theorem height_pos {s : Sequence α} {n m : Nat} (h : s.height n = some m) (hn : 0 < n ∨ s ≠ []) : 0 < m := by
  induction s generalizing n with
  | nil =>
    obtain rfl := Option.some.inj h
    exact hn.resolve_right (absurd rfl)
  | cons t ts ih =>
    simp only [height, Option.ite_none_right_eq_some] at h
    exact ih h.2 (.inl (Nat.succ_pos _))

namespace Frugal

variable {s : Sequence α}

theorem length_le (h : Frugal s) : s.length ≤ s.pops + 1 := h s (.self s)

theorem argument {t : Token α} {a : Sequence α} (h : Frugal s) (ht : t ∈ s) (ha : a ∈ t.arguments) : Frugal a :=
  fun u hu => h u (.argument ht ha hu)

end Frugal

theorem WellFormed.frugal {s : Sequence α} (h : WellFormed s) : Frugal s := by
  intro u hu
  rcases h u hu with rfl | hc
  · simp
  · have := height_pops hc
    omega

/-! ## What can be assembled -/

/-- An operator in a variable's place takes operands where the variable took none. -/
theorem pops_le_mapVars (f : Slot → Token α) (s : Sequence α) : s.pops ≤ (mapVars f s).pops := by
  have ht : ∀ t : Token α, t.arity ≤ (t.mapVars f).arity := by
    intro t
    cases t <;> simp [Token.mapVars, Token.arity]
  induction s with
  | nil => simp [pops]
  | cons t ts ih =>
    have := ht t
    simp only [pops, mapVars]
    omega

theorem frugal_mapVars {f : Slot → Token α} {s : Sequence α} (h : Frugal s)
    (hf : ∀ slot, ∀ a ∈ (f slot).arguments, Frugal a) : Frugal (mapVars f s) := by
  intro u hu
  rcases within_mapVars hu with ⟨v, hv, rfl⟩ | ⟨slot, a, ha, hu⟩
  · have := h v hv
    have := pops_le_mapVars f v
    rw [mapVars_eq_map, List.length_map, ← mapVars_eq_map]
    omega
  · exact hf slot a ha u hu

variable [Scalar α]

theorem length_operand_le {s : Sequence α} (h : Frugal s) : (operand s).length ≤ (operand s).pops + 1 := by
  unfold operand
  split
  · simp
  · exact h.length_le

theorem frugal_merge {l r : Sequence α} (hl : Frugal l) (hr : Frugal r) (o : BinOp) : Frugal (merge l r o) := by
  intro u hu
  rcases within_merge hu with rfl | hu | hu
  · have := length_operand_le hl
    have := length_operand_le hr
    have ho : pops [(.op o : Token α)] = 2 := rfl
    simp only [merge, pops_append, List.length_append, List.length_singleton, ho]
    omega
  · exact hl u hu
  · exact hr u hu

end Sequence

/-- All that can be had of sequences, with any token in place of a variable. -/
inductive Assembled [Scalar α] : Sequence α → Prop
  | parse {g : Grammar} {text : String} {s : Sequence α} : g.parse text = .ok s → Assembled s
  | empty : Assembled []
  | merge {l r : Sequence α} (o : BinOp) : Assembled l → Assembled r → Assembled (l.merge r o)
  | substitute {s : Sequence α} (v : α) : Assembled s → Assembled (s.substitute v)
  | mapVars {s : Sequence α} {f : Slot → Token α} : Assembled s → (∀ slot, ∀ a ∈ (f slot).arguments, Assembled a) →
      Assembled (s.mapVars f)
  | argument {s a : Sequence α} {t : Token α} : Assembled s → t ∈ s → a ∈ t.arguments → Assembled a

open Sequence

variable [Scalar α]

theorem Assembled.frugal {s : Sequence α} (h : Assembled s) : Frugal s := by
  induction h with
  | parse h => exact (Built.parse h).wellFormed.frugal
  | empty => exact wellFormed_nil.frugal
  | merge o _ _ ihl ihr => exact frugal_merge ihl ihr o
  | substitute v _ ih => exact frugal_mapVars ih (by rintro (_ | _) <;> simp [Token.arguments])
  | mapVars _ _ ih iha => exact frugal_mapVars ih iha
  | argument _ ht ha ih => exact ih.argument ht ha

/-! ## Evaluation -/

namespace Sequence

theorem closed_of_cell {s : Sequence α} {x : α} {c : Cell α} (hs : Frugal s)
    (hrun : ∀ stack, run x [] s = .ok stack → s.height 0 = some stack.length) (h : s.cell x = .ok c) : Closed s := by
  obtain ⟨stack, hr, hc⟩ := Except.exists_of_bind_eq_ok h
  rcases s with _ | ⟨t, ts⟩
  · exact .inl rfl
  · have hh := hrun stack hr
    have hlen := hs.length_le
    have := height_pops hh
    cases stack with
    | nil => cases hc
    | cons d below =>
      right
      rw [hh, List.length_cons, Option.some.injEq]
      rw [List.length_cons] at this
      omega

-- By the tokens: a run that succeeds has found all operands, in the arguments too, where it leaves exactly one.
theorem height_of_run (x : α) :
    (∀ t : Token α, (∀ a ∈ t.arguments, Frugal a) → ∀ stack stack', Token.run x stack t = .ok stack' →
      (t.arity ≤ stack.length ∧ stack'.length = stack.length - t.arity + 1) ∧ ∀ a ∈ t.arguments, WellFormed a) ∧
    ∀ s : Sequence α, (∀ t ∈ s, ∀ a ∈ t.arguments, Frugal a) → ∀ stack stack', run x stack s = .ok stack' →
      s.height stack.length = some stack'.length ∧ ∀ t ∈ s, ∀ a ∈ t.arguments, WellFormed a := by
  have argument : ∀ a : Sequence α, Frugal a → ((∀ t ∈ a, ∀ b ∈ t.arguments, Frugal b) →
      ∀ stack stack', run x stack a = .ok stack' →
        a.height stack.length = some stack'.length ∧ ∀ t ∈ a, ∀ b ∈ t.arguments, WellFormed b) →
      ∀ c, a.cell x = .ok c → WellFormed a := by
    intro a ha ih c hc
    have hin := ih fun _ ht _ hb => ha.argument ht hb
    obtain ⟨stack, hr, -⟩ := Except.exists_of_bind_eq_ok hc
    exact .intro (closed_of_cell ha (fun st hst => (hin [] st hst).1) hc) (hin [] stack hr).2
  refine Token.induct ?number ?var ?call ?log ?neg ?op ?nil ?cons
  case number =>
    intro v _ stack stack' h
    cases h
    simp [Token.arity, Token.arguments]
  case var =>
    intro slot _ stack stack' h
    cases slot with
    | independent =>
      cases h
      simp [Token.arity, Token.arguments]
    | dependent => cases h
  case call =>
    intro f arg ih ha stack stack' h
    rw [Token.run_call] at h
    obtain ⟨a, hcell, h⟩ := Except.exists_of_bind_eq_ok h
    obtain ⟨c, -, h⟩ := Except.exists_of_bind_eq_ok h
    cases h
    have harg := argument arg (ha arg (by simp [Token.arguments])) ih a hcell
    simpa [Token.arity, Token.arguments] using harg
  case log =>
    intro base arg ihb iha ha stack stack' h
    rw [Token.run_log] at h
    obtain ⟨b, hb, h⟩ := Except.exists_of_bind_eq_ok h
    obtain ⟨a, hcell, h⟩ := Except.exists_of_bind_eq_ok h
    obtain ⟨c, -, h⟩ := Except.exists_of_bind_eq_ok h
    cases h
    have hbase := argument base (ha base (by simp [Token.arguments])) ihb b hb
    have harg := argument arg (ha arg (by simp [Token.arguments])) iha a hcell
    simpa [Token.arity, Token.arguments] using ⟨hbase, harg⟩
  case neg =>
    intro _ stack stack' h
    rcases stack with _ | ⟨c, below⟩
    · cases h
    · cases h
      simp [Token.arity, Token.arguments]
  case op =>
    intro o _ stack stack' h
    rcases stack with _ | ⟨r, _ | ⟨l, below⟩⟩
    · cases h
    · cases h
    · obtain ⟨c, -, h⟩ := Except.exists_of_bind_eq_ok h
      cases h
      simp [Token.arity, Token.arguments]
  case nil =>
    intro _ stack stack' h
    cases h
    simp [height]
  case cons =>
    intro t ts iht ihts ha stack stack' h
    rw [run] at h
    obtain ⟨st, ht, hts⟩ := Except.exists_of_bind_eq_ok h
    obtain ⟨⟨hle, hlen⟩, hta⟩ := iht (ha t List.mem_cons_self) stack st ht
    obtain ⟨hh, htsa⟩ := ihts (fun u hu => ha u (List.mem_cons_of_mem _ hu)) st stack' hts
    refine ⟨by rw [height, if_pos hle, ← hlen, hh], fun u hu => ?_⟩
    rcases List.mem_cons.1 hu with rfl | hu
    · exact hta
    · exact htsa u hu

theorem Frugal.wellFormed {s : Sequence α} (hs : Frugal s) {x : α} {c : Cell α} (h : s.cell x = .ok c) : WellFormed s := by
  obtain ⟨stack, hr, -⟩ := Except.exists_of_bind_eq_ok h
  have hin := (height_of_run x).2 s (fun _ ht _ ha => hs.argument ht ha) []
  exact .intro (closed_of_cell hs (fun st hst => (hin st hst).1) h) (hin stack hr).2

/-! ## Printing -/

/-- Printing misses an operand or is not left with exactly one piece. Nothing is left of the empty sequence, which is
zero. -/
def Malformed (names : Names) (s : Sequence α) : Prop := s ≠ [] ∧ ∀ p, pieces names [] s ≠ some [p]

theorem Malformed.render {names : Names} {s : Sequence α} (h : Malformed names s) : s.render names = malformed := by
  obtain ⟨hne, hp⟩ := h
  rw [Sequence.render, joined, if_neg (by simpa using hne)]
  exact hp

theorem height_of_pieces (names : Names) {s : Sequence α} {stack ps : List Piece} (h : pieces names stack s = some ps) :
    s.height stack.length = some ps.length := by
  induction s generalizing stack with
  | nil =>
    obtain rfl := Option.some.inj h
    rfl
  | cons t ts ih =>
    obtain ⟨st, ht, hts⟩ := Option.bind_eq_some_iff.1 h
    have hlen : t.arity ≤ stack.length ∧ st.length = stack.length - t.arity + 1 := by
      cases t with
      | number | var | call | log =>
        cases ht
        simp [Token.arity]
      | neg =>
        rcases stack with _ | ⟨p, below⟩
        · cases ht
        · cases ht
          simp [Token.arity]
      | op o =>
        rcases stack with _ | ⟨r, _ | ⟨l, below⟩⟩
        · cases ht
        · cases ht
        · cases ht
          simp [Token.arity]
    rw [height, if_pos hlen.1, ← hlen.2, ih hts]

theorem closed_iff_not_malformed (names : Names) (s : Sequence α) : Closed s ↔ ¬ Malformed names s := by
  constructor
  · rintro hc ⟨hne, hp⟩
    obtain ⟨hnil, -⟩ | ⟨p, hps, -⟩ := hc.prints names
    · exact hne hnil
    · exact hp p hps
  · intro h
    by_cases hs : s = []
    · exact .inl hs
    · obtain ⟨p, hp⟩ := Classical.not_forall.1 fun hp => h ⟨hs, hp⟩
      exact .inr (height_of_pieces names (Classical.not_not.1 hp))

/-- One variable or one number, whose text happens to be `<malformed>`. -/
inductive LooksMalformed (names : Names) : Sequence α → Prop
  | var {slot : Slot} : names.of slot = malformed → LooksMalformed names [.var slot]
  | number {v : α} : Scalar.text v = malformed → LooksMalformed names [.number v]

theorem LooksMalformed.render {names : Names} {s : Sequence α} (h : LooksMalformed names s) :
    s.render names = malformed := by
  cases h with
  | var h | number h => exact h

theorem ne_malformed_of_mem {text : String} (x : Char) (h : x ∈ text.toList) (hx : x ∉ malformed.toList) :
    text ≠ malformed := by
  rintro rfl
  exact hx h

/-- Whatever is put together of other texts has a paren, a minus or a space in it. -/
theorem looksMalformed_of_piece {names : Names} {t : Token α} {stack below : List Piece} {p : Piece}
    (ht : t.render names stack = some (p :: below)) (hp : p.text = malformed) :
    LooksMalformed names [t] ∧ below = stack := by
  cases t with
  | number v =>
    cases ht
    exact ⟨.number hp, rfl⟩
  | var slot =>
    cases ht
    exact ⟨.var hp, rfl⟩
  | call | log =>
    cases ht
    exact absurd hp (ne_malformed_of_mem '(' (by simp [Piece.atom]) (by decide))
  | neg =>
    rcases stack with _ | ⟨q, rest⟩
    · cases ht
    · cases ht
      exact absurd hp (ne_malformed_of_mem '-' (by simp [Piece.neg]) (by decide))
  | op o =>
    rcases stack with _ | ⟨r, _ | ⟨l, rest⟩⟩
    · cases ht
    · cases ht
    · cases ht
      exact absurd hp (ne_malformed_of_mem ' ' (by simp [Piece.op]) (by decide))

theorem render_eq_malformed_iff (names : Names) (s : Sequence α) :
    s.render names = malformed ↔ Malformed names s ∨ LooksMalformed names s := by
  constructor
  · intro h
    by_cases hm : Malformed names s
    · exact .inl hm
    right
    -- the one piece is what the last token has pushed, and with a text of its own it has taken none from the stack
    obtain ⟨-, hzero⟩ | ⟨p, hp, htext⟩ := ((closed_iff_not_malformed names s).2 hm).prints names
    · exact absurd (hzero.symm.trans h) (by decide)
    rcases List.eq_nil_or_concat' s with rfl | ⟨ts, t, rfl⟩
    · cases hp
    · rw [pieces_append] at hp
      obtain ⟨stack, hts, ht⟩ := Option.bind_eq_some_iff.1 hp
      simp only [pieces, Option.bind_fun_some] at ht
      obtain ⟨hlooks, rfl⟩ := looksMalformed_of_piece ht (htext.symm.trans h)
      cases ts with
      | nil => exact hlooks
      | cons u us =>
        exact absurd (height_pos (height_of_pieces names hts) (.inr (List.cons_ne_nil u us))) (Nat.lt_irrefl 0)
  · rintro (hm | hl)
    · exact hm.render
    · exact hl.render

theorem wellFormed_iff_not_malformed (names : Names) (s : Sequence α) :
    WellFormed s ↔ ∀ u, Within u s → ¬ Malformed names u :=
  forall₂_congr fun u _ => closed_iff_not_malformed names u

theorem cell_eq_of_cell?_eq_none {s : Sequence α} (hs : WellFormed s) {x : α} (h : s.cell? x = none) :
    s.cell x = .error .undefined ∨ s.cell x = .error .unbound := by
  have hu := (hs.runs x).1
  rw [cell?] at h
  cases hc : s.cell x with
  | ok c =>
    rw [hc] at h
    cases h
  | error e =>
    cases e with
    | underflow => exact absurd hc hu
    | undefined => exact .inl rfl
    | unbound => exact .inr rfl

/-- What has a value somewhere prints at every level; and what prints at every level runs at every level without missing
an operand and to exactly one cell, so that it has no value only for a domain or for the dependent variable. The printed
text tells: it is `<malformed>` where a level does not print, and otherwise only for a variable or a number of that name. -/
theorem runs_and_prints_agree {s : Sequence α} (hs : Assembled s) (names : Names) :
    ((∃ x, (s.cell? x).isSome) → ∀ u, Within u s → ¬ Malformed names u) ∧
    ((∀ u, Within u s → ¬ Malformed names u) → ∀ u, Within u s →
      u.Runs ∧ ∀ x, u.cell? x = none → u.cell x = .error .undefined ∨ u.cell x = .error .unbound) ∧
    ∀ u, Within u s → (u.render names = malformed ↔ Malformed names u ∨ LooksMalformed names u) := by
  refine ⟨fun ⟨x, hx⟩ => ?_, fun h u hu => ?_, fun u _ => render_eq_malformed_iff names u⟩
  · obtain ⟨c, hc⟩ := Option.isSome_iff_exists.1 hx
    exact (wellFormed_iff_not_malformed names s).1 (hs.frugal.wellFormed (cell?_eq_some.1 hc))
  · have hw := ((wellFormed_iff_not_malformed names s).2 h).within hu
    exact ⟨hw.runs, fun x hx => cell_eq_of_cell?_eq_none hw hx⟩

/-- `ln(x)` with 2 for the variable has a value and prints; with a bare minus for it there is neither, and the text of the
argument says so. -/
theorem runs_and_prints_agree_ln :
    ((∀ u, Within u ([.call .ln [.number 2.0]] : Sequence Float) → ¬ Malformed {} u) ∧
      Runs ([.number 2.0] : Sequence Float)) ∧
    Malformed {} ([.neg] : Sequence Float) ∧ (∀ x, (cell? [.call .ln [.neg]] (x : Float)).isSome = false) ∧
    render {} ([.neg] : Sequence Float) = "<malformed>" := by
  have hnumber : Assembled ([.call .ln [.number 2.0]] : Sequence Float) := .substitute 2.0 (.parse parse_ln)
  have hneg : Assembled ([.call .ln [.neg]] : Sequence Float) :=
    .mapVars (f := fun _ => .neg) (.parse parse_ln) (by simp [Token.arguments])
  have hprints := (runs_and_prints_agree hnumber {}).1 ⟨0.0, by decide +kernel⟩
  have hmalformed : Malformed {} ([.neg] : Sequence Float) := ⟨by simp, by simp [pieces, Token.render]⟩
  have hin : ∀ t : Token Float, Within [t] [.call .ln [t]] := fun t =>
    .argument List.mem_cons_self List.mem_cons_self (.self _)
  obtain ⟨hvalue, -, htext⟩ := runs_and_prints_agree hneg {}
  refine ⟨⟨hprints, ((runs_and_prints_agree hnumber {}).2.1 hprints _ (hin _)).1⟩, hmalformed, fun x => ?_,
    (htext _ (hin _)).2 (.inl hmalformed)⟩
  rw [Bool.eq_false_iff]
  exact fun hx => hvalue ⟨x, hx⟩ _ (hin _) hmalformed

end Sequence

end Formula
