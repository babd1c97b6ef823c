import Formula.Proofs.Built
import Formula.Proofs.Recursion

/-!
Parsing under two bounds on how deep calls may nest. The bound is looked at in one place only, where an argument begins, so
the two runs go in step until the smaller bound is exceeded; and a text is derived in the same way whatever the bound is.
-/

namespace Formula

variable {α : Type}

/-- The same names under another bound. -/
def Grammar.limited (g : Grammar) (limit : Nat) : Grammar := { g with maxDepth := limit }

/-! ## Steps in step -/

namespace Machine

variable {n k : Nat}

theorem enter_limited (g : Grammar) (h : n ≤ k) (c : Cursor) (x : Char) (l : Level α) (call : Call α)
    (outer : List (Suspended α)) :
    enter (g.limited n) c x l call outer = enter (g.limited k) c x l call outer ∨
      enter (g.limited n) c x l call outer = .failed (.tooDeep n) := by
  unfold enter
  cases c.accept? x with
  | none => exact .inl rfl
  | some d =>
    by_cases hd : n < outer.length + 1
    · exact .inr (if_pos hd)
    · have hk : ¬ k < outer.length + 1 := by omega
      exact .inl ((if_neg hd).trans (if_neg hk).symm)

theorem leave_limited (g : Grammar) (h : n ≤ k) (c : Cursor) (s : Sequence α) (outer : List (Suspended α)) :
    leave (g.limited n) c s outer = leave (g.limited k) c s outer ∨
      leave (g.limited n) c s outer = .failed (.tooDeep n) := by
  rcases outer with _ | ⟨⟨l, _ | _ | base⟩, outer⟩
  · exact .inl rfl
  · exact .inl rfl
  · exact enter_limited g h c ',' l (.logArgument s) outer
  · exact .inl rfl

theorem stepOperator_limited (g : Grammar) (h : n ≤ k) (m : Machine α) :
    stepOperator (g.limited n) m = stepOperator (g.limited k) m ∨ stepOperator (g.limited n) m = .failed (.tooDeep n) := by
  have hleave := leave_limited g h m.cursor.skipSpaces m.level.finish m.outer
  unfold stepOperator
  simp only
  cases m.cursor.skipSpaces.symbolHere? with
  | none => exact .inl rfl
  | some p =>
    obtain ⟨s, d⟩ := p
    cases s with
    | opening | op => exact .inl rfl
    | closing | comma =>
      by_cases ho : m.level.opened = 0
      · simpa only [ho, if_true] using hleave
      · exact .inl (by simp only [ho, if_false])

variable [Scalar α]

theorem stepOperand_limited (g : Grammar) (h : n ≤ k) (m : Machine α) (sign : Bool) :
    stepOperand (g.limited n) m sign = stepOperand (g.limited k) m sign ∨
      stepOperand (g.limited n) m sign = .failed (.tooDeep n) := by
  have hc : ∀ r, m.cursor.skipSpaces.operand? (α := α) (g.limited r) = m.cursor.skipSpaces.operand? g := fun _ => rfl
  unfold stepOperand
  simp only [hc]
  rcases m.cursor.skipSpaces.operand? (α := α) g with e | _ | ⟨t | call, d⟩
  · exact .inl rfl
  · exact .inl rfl
  · exact .inl rfl
  · exact enter_limited g h d '(' m.level call m.outer

theorem step_limited (g : Grammar) (h : n ≤ k) (m : Machine α) :
    step (g.limited n) m = step (g.limited k) m ∨ step (g.limited n) m = .failed (.tooDeep n) := by
  unfold step
  cases m.expecting with
  | operand sign =>
    by_cases he : m.cursor.atEnd
    · exact .inl (by simp only [he, if_true])
    · simpa only [he, Bool.false_eq_true, if_false] using stepOperand_limited g h m sign
  | operator =>
    by_cases he : m.cursor.atEnd
    · by_cases ho : m.level.opened = 0
      · simpa only [he, ho, if_true] using leave_limited g h m.cursor m.level.finish m.outer
      · exact .inl (by simp only [he, ho, if_true, if_false])
    · simpa only [he, Bool.false_eq_true, if_false] using stepOperator_limited g h m

theorem run_limited (g : Grammar) (h : n ≤ k) (m : Machine α) :
    run (g.limited n) m = run (g.limited k) m ∨ run (g.limited n) m = .error (.tooDeep n) := by
  fun_induction run (g.limited n) m with
  | case1 m next hs ih =>
    rcases step_limited g h m with he | he
    · rwa [run_of_steps (g := g.limited k) (.of_step (he.symm.trans hs))]
    · cases hs.symm.trans he
  | case2 m s rest hs =>
    rcases step_limited g h m with he | he
    · exact .inl (run_of_done (he.symm.trans hs)).symm
    · cases hs.symm.trans he
  | case3 m e hs =>
    rcases step_limited g h m with he | he
    · exact .inl (run_of_failed (he.symm.trans hs)).symm
    · cases hs.symm.trans he
      exact .inr rfl

end Machine

/-! ## Derivations -/

variable [Scalar α] {g : Grammar} {ordered : Bool}

theorem Leaf.limited {here rest : List Char} {t : Term α} (h : Leaf g here t rest) (limit : Nat) :
    Leaf (g.limited limit) here t rest := by
  cases h with
  | name hn => exact .name hn
  | euler hn => exact .euler hn
  | pi hn => exact .pi hn
  | numeral hn hl => exact .numeral hn hl

theorem Derives.limited {p : Phrase α} {a b : List Char} (h : Derives g ordered p a b) (limit : Nat) :
    Derives (g.limited limit) ordered p a b := by
  induction h with
  | leaf hs hh hl => exact .leaf hs hh (hl.limited limit)
  | call hs hn _ ht hc ih => exact .call hs hn ih ht hc
  | log hs hn _ ht hm _ hu hc iht ihu => exact .log hs hn iht ht hm ihu hu hc
  | group hs hn _ ht hc ih => exact .group hs hn ih ht hc
  | plain _ ih => exact .plain ih
  | minus hs hn hb _ ih => exact .minus hs hn hb ih
  | single _ ih => exact .single ih
  | more _ hs _ ihl ihr => exact .more ihl hs ihr

theorem Grammar.Reads.limited {text : List Char} {t : Term α} (h : g.Reads ordered text t) (limit : Nat) :
    (g.limited limit).Reads ordered text t := by
  obtain ⟨v, hv, ht⟩ := h
  exact ⟨v, hv.limited limit, ht⟩

/-! ## Whole texts -/

namespace Grammar

variable {n k : Nat}

theorem parse_eq_or_tooDeep (g : Grammar) (h : n ≤ k) (text : String) :
    (g.limited n).parse (α := α) text = (g.limited k).parse text ∨
      (g.limited n).parse (α := α) text = .error (.tooDeep n) := by
  simp only [parse, parseChars]
  split
  · exact .inl rfl
  · rcases Machine.run_limited (α := α) g h (.start (.ofList (Text.trim text.toList))) with he | he
    · exact .inl (by rw [he])
    · exact .inr (by rw [he]; rfl)

theorem depth_le_of_parse {text : String} {s : Sequence α} (h : g.parse text = .ok s) : s.depth ≤ g.maxDepth := by
  rcases reads_of_parse h with rfl | ⟨t, -, hd, rfl⟩
  · exact Nat.zero_le _
  · rwa [Term.depth_postorder]

theorem parse_of_depth_le {text : String} {s : Sequence α} (h : g.parse text = .ok s) {limit : Nat}
    (hd : s.depth ≤ limit) : (g.limited limit).parse text = .ok s := by
  by_cases ht : Text.trim text.toList = []
  · rw [← h]
    simp [parse, parseChars, ht]
  · obtain ⟨t, hr, -, rfl⟩ := (parse_ok_iff_reads g text s ht).1 h
    rw [Term.depth_postorder] at hd
    exact (parse_ok_iff_reads _ text _ ht).2 ⟨t, hr.limited limit, hd, rfl⟩

/-- Under a smaller bound a text is read with the same result, an error too, or reported as nested too deep; it is read if
its calls nest within the bound, and then the bound is one for the recursion over the sequence as well. -/
theorem parse_limited (g : Grammar) (text : String) (h : n ≤ k) :
    ((g.limited n).parse (α := α) text = (g.limited k).parse text ∨
      (g.limited n).parse (α := α) text = .error (.tooDeep n)) ∧
    (∀ s : Sequence α, (g.limited n).parse text = .ok s → s.depth ≤ n ∧
      (∀ x stop, levels (Sequence.cellOne x) stop n s = s.cell x) ∧
      (∀ f stop, levels (Sequence.mapVarsOne f) stop n s = s.mapVars f) ∧
      ∀ names stop, levels (Sequence.renderOne names) stop n s = s.render names) ∧
    ∀ s : Sequence α, (g.limited k).parse text = .ok s → s.depth ≤ n → (g.limited n).parse text = .ok s := by
  refine ⟨parse_eq_or_tooDeep g h text, fun s hs => ?_, fun s hs hd => parse_of_depth_le hs hd⟩
  have hd : s.depth ≤ n := depth_le_of_parse hs
  exact ⟨hd, fun x stop => (Sequence.recursion_cell x).levels_eq stop hd,
    fun f stop => (Sequence.recursion_mapVars f).levels_eq stop hd,
    fun names stop => (Sequence.recursion_render names).levels_eq stop hd⟩

/-- One call is nested once: it is read where that is allowed and reported where it is not. -/
theorem parse_limited_ln :
    ((oneVariable "x").limited 1).parse (α := Float) "ln(x)" = .ok [.call .ln [.var .independent]] ∧
      ((oneVariable "x").limited 0).parse (α := Float) "ln(x)" = .error (.tooDeep 0) := by
  have hone := (parse_limited (n := 1) (k := 64) (oneVariable "x") "ln(x)" (by decide)).2.2 _ parse_ln (by decide)
  refine ⟨hone, ?_⟩
  rcases (parse_limited (α := Float) (n := 0) (k := 1) (oneVariable "x") "ln(x)" (by decide)).1 with he | he
  · have hd := ((parse_limited (n := 0) (k := 1) (oneVariable "x") "ln(x)" (by decide)).2.1 _ (he.trans hone)).1
    exact absurd hd (by decide)
  · exact he

end Grammar

end Formula
