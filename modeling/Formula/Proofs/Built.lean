import Formula.Proofs.Closed
import Formula.Proofs.Grammar.Acceptance

/-!
Every sequence that can be had is well formed: what the parser answers, and what joining and replacing variables make of
it.
-/

namespace Formula

variable {α : Type}

/-! ## Trees -/

namespace Term

open Sequence

theorem height_postorder (t : Term α) (n : Nat) : height n t.postorder = some (n + 1) := by
  induction t generalizing n with
  | number | var | call | log => rfl
  | neg t ih => simp [postorder, height_append, ih, height, Token.arity]
  | op o l r ihl ihr => simp [postorder, height_append, ihl, ihr, height, Token.arity]

theorem argument_postorder {t : Term α} {tok : Token α} {a : Sequence α} (ht : tok ∈ t.postorder)
    (ha : a ∈ tok.arguments) : ∃ u : Term α, a = u.postorder := by
  induction t with
  | number | var =>
    rw [List.mem_singleton.1 ht] at ha
    simp [Token.arguments] at ha
  | call f arg =>
    rw [List.mem_singleton.1 ht] at ha
    exact ⟨arg, List.mem_singleton.1 ha⟩
  | log base arg =>
    rw [List.mem_singleton.1 ht] at ha
    rcases List.mem_cons.1 ha with ha | ha
    · exact ⟨base, ha⟩
    · exact ⟨arg, List.mem_singleton.1 ha⟩
  | neg t ih =>
    rcases List.mem_append.1 ht with ht | ht
    · exact ih ht
    · rw [List.mem_singleton.1 ht] at ha
      simp [Token.arguments] at ha
  | op o l r ihl ihr =>
    rcases List.mem_append.1 ht with ht | ht
    · exact (List.mem_append.1 ht).elim ihl ihr
    · rw [List.mem_singleton.1 ht] at ha
      simp [Token.arguments] at ha

theorem within_postorder {t : Term α} {u : Sequence α} (h : Within u t.postorder) : ∃ w : Term α, u = w.postorder := by
  generalize hs : t.postorder = s at h
  induction h generalizing t with
  | self s => exact ⟨t, hs.symm⟩
  | argument ht ha _ ih =>
    subst hs
    obtain ⟨w, rfl⟩ := argument_postorder ht ha
    exact ih rfl

theorem wellFormed_postorder (t : Term α) : WellFormed t.postorder := by
  intro u hu
  obtain ⟨w, rfl⟩ := within_postorder hu
  exact .inr (w.height_postorder 0)

/-- What one token makes of the trees on a stack, the latest first. -/
theorem exists_push {t : Token α} (ha : ∀ a ∈ t.arguments, ∃ w : Term α, w.postorder = a) {ts : List (Term α)}
    (h : t.arity ≤ ts.length) : ∃ us : List (Term α), us.length = ts.length - t.arity + 1 ∧
      us.reverse.flatMap postorder = ts.reverse.flatMap postorder ++ [t] := by
  cases t with
  | number v => exact ⟨.number v :: ts, rfl, by simp [postorder]⟩
  | var slot => exact ⟨.var slot :: ts, rfl, by simp [postorder]⟩
  | call f arg =>
    obtain ⟨w, rfl⟩ := ha arg (by simp [Token.arguments])
    exact ⟨.call f w :: ts, rfl, by simp [postorder]⟩
  | log base arg =>
    obtain ⟨v, rfl⟩ := ha base (by simp [Token.arguments])
    obtain ⟨w, rfl⟩ := ha arg (by simp [Token.arguments])
    exact ⟨.log v w :: ts, rfl, by simp [postorder]⟩
  | neg =>
    rcases ts with _ | ⟨u, below⟩
    · simp [Token.arity] at h
    · exact ⟨.neg u :: below, rfl, by simp [postorder]⟩
  | op o =>
    rcases ts with _ | ⟨r, _ | ⟨l, below⟩⟩
    · simp [Token.arity] at h
    · simp [Token.arity] at h
    · exact ⟨.op o l r :: below, rfl, by simp [postorder]⟩

theorem exists_stack {s : Sequence α} (ha : ∀ t ∈ s, ∀ a ∈ t.arguments, ∃ w : Term α, w.postorder = a) {n : Nat}
    {ts : List (Term α)} (h : s.height ts.length = some n) : ∃ us : List (Term α), us.length = n ∧
      us.reverse.flatMap postorder = ts.reverse.flatMap postorder ++ s := by
  induction s generalizing ts with
  | nil => exact ⟨ts, by simpa [height] using h, by simp⟩
  | cons t s ih =>
    simp only [height, Option.ite_none_right_eq_some] at h
    obtain ⟨ht, hs⟩ := h
    obtain ⟨us, hlen, hus⟩ := exists_push (ha t List.mem_cons_self) ht
    rw [← hlen] at hs
    obtain ⟨vs, hn, hvs⟩ := ih (fun u hu => ha u (List.mem_cons_of_mem _ hu)) hs
    exact ⟨vs, hn, by simp [hvs, hus]⟩

-- On tokens and sequences together: an argument is a whole sequence, and its tree is part of the tree around it.
theorem exists_arguments :
    (∀ t : Token α, (∀ a ∈ t.arguments, WellFormed a ∧ ∀ u, Within u a → u ≠ []) →
      ∀ a ∈ t.arguments, ∃ w : Term α, w.postorder = a) ∧
    ∀ s : Sequence α, (∀ t ∈ s, ∀ a ∈ t.arguments, WellFormed a ∧ ∀ u, Within u a → u ≠ []) →
      ∀ t ∈ s, ∀ a ∈ t.arguments, ∃ w : Term α, w.postorder = a := by
  have tree : ∀ a : Sequence α, (WellFormed a ∧ ∀ u, Within u a → u ≠ []) →
      ((∀ t ∈ a, ∀ b ∈ t.arguments, WellFormed b ∧ ∀ u, Within u b → u ≠ []) →
        ∀ t ∈ a, ∀ b ∈ t.arguments, ∃ w : Term α, w.postorder = b) → ∃ w : Term α, w.postorder = a := by
    rintro a ⟨hw, hne⟩ ih
    have hb := ih fun t ht b hb => ⟨hw.argument ht hb, fun u hu => hne u (.argument ht hb hu)⟩
    have hone : a.height ([] : List (Term α)).length = some 1 := hw.closed.resolve_left (hne a (.self a))
    obtain ⟨us, hlen, hus⟩ := exists_stack hb hone
    obtain ⟨w, rfl⟩ := List.length_eq_one_iff.1 hlen
    exact ⟨w, by simpa using hus⟩
  refine Token.induct ?number ?var ?call ?log ?neg ?op ?nil ?cons
  case number | var | neg | op => simp [Token.arguments]
  case call =>
    intro f arg ih ha a hm
    rw [List.mem_singleton.1 hm]
    exact tree arg (ha arg (by simp [Token.arguments])) ih
  case log =>
    intro base arg ihb iha ha a hm
    rcases List.mem_cons.1 hm with rfl | hm
    · exact tree a (ha a (by simp [Token.arguments])) ihb
    · rw [List.mem_singleton.1 hm]
      exact tree arg (ha arg (by simp [Token.arguments])) iha
  case nil => simp
  case cons =>
    intro t s iht ihs ha u hu
    rcases List.mem_cons.1 hu with rfl | hu
    · exact iht (ha u List.mem_cons_self)
    · exact ihs (fun v hv => ha v (List.mem_cons_of_mem _ hv)) u hu

/-- A well-formed sequence without empty parts is the postorder of a tree. -/
theorem exists_postorder {s : Sequence α} (hw : WellFormed s) (hne : ∀ u, Within u s → u ≠ []) :
    ∃ t : Term α, t.postorder = s :=
  exists_arguments.1 (.call .abs s) (by simpa [Token.arguments] using ⟨hw, hne⟩) s (by simp [Token.arguments])

end Term

namespace Sequence

/-! ## Joining and replacing -/

theorem wellFormed_nil : WellFormed ([] : Sequence α) := .intro (.inl rfl) (by simp)

theorem height_mapVars {f : Slot → Token α} (hf : ∀ slot, (f slot).arity = 0) (s : Sequence α) (n : Nat) :
    height n (mapVars f s) = height n s := by
  induction s generalizing n with
  | nil => simp [mapVars]
  | cons t ts ih =>
    have ht : (t.mapVars f).arity = t.arity := by
      cases t with
      | var slot => exact (congrArg Token.arity (by rw [Token.mapVars])).trans (hf slot)
      | number | call | log | neg | op => simp [Token.mapVars, Token.arity]
    simp [mapVars, height, ht, ih]

theorem closed_mapVars {f : Slot → Token α} (hf : ∀ slot, (f slot).arity = 0) {s : Sequence α} (h : Closed s) :
    Closed (mapVars f s) := by
  rcases h with rfl | h
  · exact .inl (by simp [mapVars])
  · exact .inr (by rw [height_mapVars hf, h])

theorem arguments_mapVars (f : Slot → Token α) (t : Token α) :
    (∃ slot, t = .var slot) ∨ (t.mapVars f).arguments = t.arguments.map (mapVars f) := by
  cases t <;> simp [Token.mapVars, Token.arguments]

/-- What stands in a sequence with variables replaced stood there before, or has come with a replacement. -/
theorem within_mapVars {f : Slot → Token α} {s u : Sequence α} (h : Within u (mapVars f s)) :
    (∃ v, Within v s ∧ u = mapVars f v) ∨ ∃ slot, ∃ a ∈ (f slot).arguments, Within u a := by
  generalize hm : mapVars f s = m at h
  induction h generalizing s with
  | self => exact .inl ⟨s, .self s, hm.symm⟩
  | @argument _ _ a _ ht ha hu ih =>
    subst hm
    rw [mapVars_eq_map] at ht
    obtain ⟨t, hmem, rfl⟩ := List.mem_map.1 ht
    rcases arguments_mapVars f t with ⟨slot, rfl⟩ | harg
    · exact .inr ⟨slot, a, by simpa only [Token.mapVars] using ha, hu⟩
    · rw [harg] at ha
      obtain ⟨b, hb, rfl⟩ := List.mem_map.1 ha
      exact (ih rfl).imp_left fun ⟨v, hv, he⟩ => ⟨v, .argument hmem hb hv, he⟩

theorem wellFormed_mapVars {f : Slot → Token α} (hf : ∀ slot, (f slot).arity = 0)
    (hr : ∀ slot, ∀ a ∈ (f slot).arguments, WellFormed a) {s : Sequence α} (h : WellFormed s) :
    WellFormed (mapVars f s) := by
  intro u hu
  rcases within_mapVars hu with ⟨v, hv, rfl⟩ | ⟨slot, a, ha, hu⟩
  · exact closed_mapVars hf (h v hv)
  · exact hr slot a ha u hu

theorem wellFormed_substitute {s : Sequence α} (h : WellFormed s) (v : α) : WellFormed (s.substitute v) :=
  wellFormed_mapVars (by rintro (_ | _) <;> rfl) (by rintro (_ | _) <;> simp [Token.arguments]) h

variable [Scalar α]

theorem height_operand {s : Sequence α} (h : Closed s) (n : Nat) : height n (operand s) = some (n + 1) := by
  have h0 : height 0 (operand s) = some 1 := by
    rcases h with rfl | h
    · rfl
    · rw [operand, if_neg, h]
      rintro hs
      rw [List.isEmpty_iff.1 hs] at h
      cases h
  rw [← Nat.zero_add n, height_add h0, Nat.add_comm]
  simp

theorem mem_of_mem_operand {s : Sequence α} {t : Token α} {a : Sequence α} (ht : t ∈ operand s) (ha : a ∈ t.arguments) :
    t ∈ s := by
  unfold operand at ht
  split at ht
  · rw [List.mem_singleton.1 ht] at ha
    simp [Token.arguments] at ha
  · exact ht

/-- Joining builds nothing new but the whole. -/
theorem within_merge {l r u : Sequence α} {o : BinOp} (h : Within u (merge l r o)) :
    u = merge l r o ∨ Within u l ∨ Within u r := by
  cases h with
  | self => exact .inl rfl
  | argument ht ha hu =>
    right
    rcases List.mem_append.1 ht with ht | ht
    · rcases List.mem_append.1 ht with ht | ht
      · exact .inl (.argument (mem_of_mem_operand ht ha) ha hu)
      · exact .inr (.argument (mem_of_mem_operand ht ha) ha hu)
    · rw [List.mem_singleton.1 ht] at ha
      simp [Token.arguments] at ha

theorem closed_merge {l r : Sequence α} (hl : Closed l) (hr : Closed r) (o : BinOp) : Closed (merge l r o) := by
  right
  simp [merge, height_append, height_operand hl, height_operand hr, height, Token.arity]

theorem wellFormed_merge {l r : Sequence α} (hl : WellFormed l) (hr : WellFormed r) (o : BinOp) :
    WellFormed (merge l r o) := by
  intro u hu
  rcases within_merge hu with rfl | hu | hu
  · exact closed_merge hl.closed hr.closed o
  · exact hl u hu
  · exact hr u hu

end Sequence

/-- What can be had of sequences without looking into them. A replacement is an operand, and its arguments have been
built themselves. -/
inductive Built [Scalar α] : Sequence α → Prop
  | parse {g : Grammar} {text : String} {s : Sequence α} : g.parse text = .ok s → Built s
  | empty : Built []
  | merge {l r : Sequence α} (o : BinOp) : Built l → Built r → Built (l.merge r o)
  | substitute {s : Sequence α} (v : α) : Built s → Built (s.substitute v)
  | mapVars {s : Sequence α} {f : Slot → Token α} : Built s → (∀ slot, (f slot).arity = 0) →
      (∀ slot, ∀ a ∈ (f slot).arguments, Built a) → Built (s.mapVars f)

open Sequence

variable [Scalar α]

theorem Built.wellFormed {s : Sequence α} (h : Built s) : WellFormed s := by
  induction h with
  | parse h =>
    rcases Grammar.reads_of_parse h with rfl | ⟨t, -, -, rfl⟩
    · exact wellFormed_nil
    · exact t.wellFormed_postorder
  | empty => exact wellFormed_nil
  | merge o _ _ ihl ihr => exact wellFormed_merge ihl ihr o
  | substitute v _ ih => exact wellFormed_substitute ih v
  | mapVars _ hf _ ih iha => exact wellFormed_mapVars hf iha ih

/-- Running finds every operand and leaves one cell, or none for the empty sequence. -/
def Sequence.Runs (s : Sequence α) : Prop :=
  ∀ x, s.cell x ≠ .error .underflow ∧ ∀ stack, run x [] s = .ok stack → s ≠ [] → stack.length = 1

/-- Printing finds every operand and leaves one piece, or none for the empty sequence. -/
def Sequence.Prints (s : Sequence α) : Prop :=
  ∀ names, (s = [] ∧ s.render names = "0") ∨ ∃ p, pieces names [] s = some [p] ∧ s.render names = p.text

theorem Sequence.WellFormed.runs {s : Sequence α} (h : WellFormed s) : s.Runs := by
  have hl : ∀ x n, s.height 0 = some n → Leaves n (run x [] s) := fun x n hn =>
    (leaves_run x).2 s (fun _ ht _ ha => h.argument ht ha) [] n hn
  intro x
  refine ⟨cell_ne_underflow h.closed (hl x), fun stack hs hne => ?_⟩
  have := hl x 1 (h.closed.resolve_left hne)
  rwa [hs] at this

theorem Sequence.Closed.prints {s : Sequence α} (h : Closed s) : s.Prints := by
  intro names
  rcases h with rfl | hc
  · exact .inl ⟨rfl, rfl⟩
  · obtain ⟨ps, hp, hlen⟩ : ∃ ps, pieces names [] s = some ps ∧ ps.length = 1 := pieces_of_height names hc
    obtain ⟨p, rfl⟩ := List.length_eq_one_iff.1 hlen
    exact .inr ⟨p, hp, by rw [render, hp, joined]⟩

/-- Whatever has been built is well formed, so it runs and prints at every level, and a parsed sequence holds no empty
argument. -/
theorem built_wellFormed :
    (∀ s : Sequence α, Built s → WellFormed s ∧ ∀ u, Within u s → u.Runs ∧ u.Prints) ∧
    ∀ (g : Grammar) (text : String) (s : Sequence α), g.parse text = .ok s →
      ∀ t ∈ s, ∀ a ∈ t.arguments, ∀ u, Within u a → u ≠ [] := by
  refine ⟨fun s hs => ⟨hs.wellFormed, fun u hu => ?_⟩, fun g text s h t ht a ha u hu => ?_⟩
  · have hw := hs.wellFormed.within hu
    exact ⟨hw.runs, hw.closed.prints⟩
  · rcases Grammar.reads_of_parse h with rfl | ⟨w, -, -, rfl⟩
    · simp at ht
    · obtain ⟨v, rfl⟩ := Term.argument_postorder ht ha
      obtain ⟨r, rfl⟩ := Term.within_postorder hu
      exact r.postorder_ne_nil

theorem parse_ln : (Grammar.oneVariable "x").parse (α := Float) "ln(x)" = .ok [.call .ln [.var .independent]] := by
  refine (Grammar.parse_ok_iff_reads _ "ln(x)" _ (by decide)).2 ⟨.call .ln (.var .independent), ?_, by decide, rfl⟩
  have hx : Leaf (α := Float) (.oneVariable "x") ("x".toList ++ [')']) (.var .independent) [')'] := .name (by decide)
  have ha : Derives (.oneVariable "x") true _ _ [')'] := .single (.plain (.leaf ⟨0, rfl⟩ (by simp) hx))
  have hg : ∀ t : Term Float, Groups .sum [.operand t] t := fun t => .sum (.product (.signed (.power (.operand t))))
  exact ⟨_, .single (.plain (.call ⟨0, rfl⟩ (by decide) ha (hg _) ⟨0, rfl⟩)), hg _⟩

theorem built_difference :
    (WellFormed (merge [] (substitute [.call .ln [.var .independent]] 2.0) .sub : Sequence Float) ∧
      (merge [] (substitute [.call .ln [.var .independent]] 2.0) .sub : Sequence Float).Runs) ∧
    ([.var .independent] : Sequence Float) ≠ [] := by
  have hb : Built (merge [] (substitute [.call .ln [.var .independent]] 2.0) .sub : Sequence Float) :=
    .merge .sub .empty (.substitute 2.0 (.parse parse_ln))
  obtain ⟨hw, hu⟩ := built_wellFormed.1 _ hb
  refine ⟨⟨hw, (hu _ (.self _)).1⟩, ?_⟩
  exact built_wellFormed.2 _ _ _ parse_ln _ List.mem_cons_self _ List.mem_cons_self _ (.self _)

end Formula
