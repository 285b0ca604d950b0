import ChomskyForm.Conversion.Binary
import ChomskyForm.Proofs.Derivation
import ChomskyForm.Proofs.Fresh
import Mathlib.Algebra.GroupWithZero.Nat
import Mathlib.Data.List.Forall2

/-!
# Languages with short productions

A production longer than two symbols costs one free letter for each symbol beyond the second, and
shortening fails exactly when the letters do not suffice. Each letter names a pair that ends a
production, so a short production unfolds into the long one that it stands for and derives the same
words.
-/

namespace ChomskyForm.Grammar

variable {grammar middle grown : Grammar} {lefts more old : List Symbol}
  {sources others : List Production} {count extra : Nat}

/-- The number of symbols beyond the second in all the productions together. -/
def excess (productions : List Production) : Nat :=
  (productions.map fun production => production.length - 2).sum

theorem excess_cons (production : Production) (productions : List Production) :
    excess (production :: productions) = (production.length - 2) + excess productions := by
  rw [excess, List.map_cons, List.sum_cons]
  rfl

theorem excess_append (first second : List Production) :
    excess (first ++ second) = excess first + excess second := by
  rw [excess, List.map_append, List.sum_append]
  rfl

/-! ### Growth by pairs -/

/-- The grammar `grown` names pairs by `count` free letters. The symbols of a pair come from long
productions among `sources` or are such letters, and alternatives change at most for the symbols
among `lefts`. -/
structure Shortens (grammar : Grammar) (lefts : List Symbol) (sources : List Production)
    (count : Nat) (grown : Grammar) : Prop extends Grows grammar count grown where
  kept : ∀ left ∈ grammar.keys, left ∉ lefts →
    grown.alternatives left = grammar.alternatives left
  named : ∀ left ∈ grown.keys, left ∉ grammar.keys → ∃ first second,
    grown.alternatives left = [[first, second]] ∧ ∀ symbol ∈ [first, second],
      (∃ source ∈ sources, 2 < source.length ∧ symbol ∈ source) ∨
        symbol ∈ grown.keys ∧ symbol ∉ grammar.keys

theorem Shortens.refl (grammar : Grammar) : Shortens grammar [] [] 0 grammar where
  toGrows := .of_keys_eq rfl rfl
  kept := fun _ _ _ => rfl
  named := fun _ hleft hnew => absurd hleft hnew

theorem Shortens.mono (h : Shortens grammar lefts sources count grown)
    (hle : ∀ source ∈ sources, 2 < source.length →
      ∃ other ∈ others, 2 < other.length ∧ source ⊆ other) :
    Shortens grammar lefts others count grown where
  toGrows := h.toGrows
  kept := h.kept
  named := fun left hleft hnew => by
    obtain ⟨first, second, halternatives, hsymbols⟩ := h.named left hleft hnew
    refine ⟨first, second, halternatives, fun symbol hsymbol => ?_⟩
    rcases hsymbols symbol hsymbol with ⟨source, hsource, hlong, hmem⟩ | hfresh
    · obtain ⟨other, hother, hotherLong, hsubset⟩ := hle source hsource hlong
      exact .inl ⟨other, hother, hotherLong, hsubset hmem⟩
    · exact .inr hfresh

theorem Shortens.trans (h₁ : Shortens grammar lefts sources count middle)
    (h₂ : Shortens middle more others extra grown) (hmore : ∀ left ∈ more, left ∈ grammar.keys) :
    Shortens grammar (lefts ++ more) (sources ++ others) (count + extra) grown where
  toGrows := h₁.toGrows.trans h₂.toGrows
  kept := fun left hleft hnot => by
    rw [List.mem_append, not_or] at hnot
    exact (h₂.kept left (h₁.mem_keys hleft) hnot.2).trans (h₁.kept left hleft hnot.1)
  named := fun left hleft hnew => by
    by_cases hmiddle : left ∈ middle.keys
    · obtain ⟨first, second, halternatives, hsymbols⟩ := h₁.named left hmiddle hnew
      rw [← h₂.kept left hmiddle fun hmem => hnew (hmore left hmem)] at halternatives
      refine ⟨first, second, halternatives, fun symbol hsymbol => ?_⟩
      rcases hsymbols symbol hsymbol with ⟨source, hsource, hlong⟩ | ⟨hkey, hfresh⟩
      · exact .inl ⟨source, List.mem_append_left _ hsource, hlong⟩
      · exact .inr ⟨h₂.mem_keys hkey, hfresh⟩
    · obtain ⟨first, second, halternatives, hsymbols⟩ := h₂.named left hleft hmiddle
      refine ⟨first, second, halternatives, fun symbol hsymbol => ?_⟩
      rcases hsymbols symbol hsymbol with ⟨source, hsource, hlong⟩ | ⟨hkey, hfresh⟩
      · exact .inl ⟨source, List.mem_append_right _ hsource, hlong⟩
      · exact .inr ⟨hkey, fun hold => hfresh (h₁.mem_keys hold)⟩

/-- One more pair gets the next free letter. -/
theorem Shortens.addPair (h : Shortens grammar lefts sources count middle) {fresh : Symbol}
    {rest : List Symbol} (hfree : middle.free = fresh :: rest) {first second : Symbol}
    (hsymbols : ∀ symbol ∈ [first, second],
      (∃ source ∈ sources, 2 < source.length ∧ symbol ∈ source) ∨
        symbol ∈ middle.keys ∧ symbol ∉ grammar.keys) :
    Shortens grammar lefts sources (count + 1) (middle.addRule fresh [[first, second]]) := by
  have hadd := Extends.addRule hfree [[first, second]]
  have hkeep : ∀ symbol, (∃ source ∈ sources, 2 < source.length ∧ symbol ∈ source) ∨
      symbol ∈ middle.keys ∧ symbol ∉ grammar.keys →
      (∃ source ∈ sources, 2 < source.length ∧ symbol ∈ source) ∨
        symbol ∈ (middle.addRule fresh [[first, second]]).keys ∧ symbol ∉ grammar.keys :=
    fun symbol hsymbol => hsymbol.imp_right fun hnew => ⟨hadd.mem_keys hnew.1, hnew.2⟩
  refine ⟨h.toGrows.trans hadd.toGrows, fun left hleft hnot => ?_, fun left hleft hnew => ?_⟩
  · exact (hadd.alternatives_eq left (h.mem_keys hleft)).trans (h.kept left hleft hnot)
  · by_cases hmiddle : left ∈ middle.keys
    · obtain ⟨x, y, halternatives, hpair⟩ := h.named left hmiddle hnew
      rw [← hadd.alternatives_eq left hmiddle] at halternatives
      exact ⟨x, y, halternatives, fun symbol hsymbol => hkeep symbol (hpair symbol hsymbol)⟩
    · rw [hadd.keys_eq, hfree, List.mem_append] at hleft
      have heq : left = fresh := List.mem_singleton.1 (hleft.resolve_left hmiddle)
      subst heq
      exact ⟨first, second, alternatives_addRule_self hmiddle _,
        fun symbol hsymbol => hkeep symbol (hsymbols symbol hsymbol)⟩

theorem Shortens.setAlternatives {left : Symbol} (hleft : left ∈ grammar.keys)
    (right : List Production) :
    Shortens grammar [left] [] 0 (grammar.setAlternatives left right) := by
  have hkeys : (grammar.setAlternatives left right).keys = grammar.keys := by
    rw [keys_setAlternatives, if_pos hleft]
  refine ⟨.of_keys_eq hkeys rfl, fun other _ hother => ?_, fun other hother hnew => ?_⟩
  · rw [alternatives_setAlternatives, if_neg fun heq => hother (List.mem_singleton.2 heq)]
  · rw [hkeys] at hother
    exact absurd hother hnew

/-- The symbol whose productions were shortened takes the short ones as its alternatives. -/
theorem Shortens.setRow {left : Symbol} (h : Shortens grammar [] sources count middle)
    (hleft : left ∈ grammar.keys) (right : List Production) :
    Shortens grammar [left] sources count (middle.setAlternatives left right) := by
  have hset := Shortens.setAlternatives (h.mem_keys hleft) right
  have hboth := h.trans hset fun other hother => List.mem_singleton.1 hother ▸ hleft
  rwa [List.nil_append, List.append_nil, Nat.add_zero] at hboth

/-! ### Unfolding -/

/-- The first production is short and stands for the second: where they differ, a letter names what
follows the first symbol. -/
inductive Unfolds (grammar : Grammar) (old : List Symbol) : Production → Production → Prop
  | short {production : Production} (isShort : production.length ≤ 2) :
      Unfolds grammar old production production
  | chain {first fresh : Symbol} {tail rest : Production}
      (isNonterminal : fresh.isNonterminal = true) (isKey : fresh ∈ grammar.keys)
      (isNew : fresh ∉ old) (alternatives : grammar.alternatives fresh = [tail])
      (isLong : 2 ≤ rest.length) (inner : Unfolds grammar old tail rest) :
      Unfolds grammar old [first, fresh] (first :: rest)

variable {short production : Production}

theorem Unfolds.exists_eq_pair (h : grammar.Unfolds old short production)
    (hlong : 2 ≤ production.length) : ∃ first second, short = [first, second] := by
  cases h with
  | short isShort => exact List.length_eq_two.1 (Nat.le_antisymm isShort hlong)
  | chain => exact ⟨_, _, rfl⟩

theorem Unfolds.mem (h : grammar.Unfolds old short production) :
    ∀ symbol ∈ short, symbol ∈ production ∨ symbol ∈ grammar.keys ∧ symbol ∉ old := by
  intro symbol hsymbol
  cases h with
  | short => exact .inl hsymbol
  | chain _ isKey isNew =>
      simp only [List.mem_cons, List.not_mem_nil, or_false] at hsymbol
      rcases hsymbol with rfl | rfl
      · exact .inl List.mem_cons_self
      · exact .inr ⟨isKey, isNew⟩

theorem Unfolds.mono (h : grammar.Unfolds old short production) (hkeys : grammar.keys ⊆ grown.keys)
    (hkept : ∀ left ∈ grammar.keys, left ∉ old →
      grown.alternatives left = grammar.alternatives left) :
    grown.Unfolds old short production := by
  induction h with
  | short isShort => exact .short isShort
  | chain isNonterminal isKey isNew alternatives isLong _ ih =>
      refine .chain isNonterminal (hkeys isKey) isNew ?_ isLong ih
      rw [hkept _ isKey isNew]
      exact alternatives

theorem Unfolds.anti (h : grammar.Unfolds old short production) (hle : lefts ⊆ old) :
    grammar.Unfolds lefts short production := by
  induction h with
  | short isShort => exact .short isShort
  | chain isNonterminal isKey isNew alternatives isLong _ ih =>
      exact .chain isNonterminal isKey (fun hmem => isNew (hle hmem)) alternatives isLong ih

theorem Unfolds.derives_iff (h : grammar.Unfolds old short production) {word : List Symbol} :
    grammar.Derives short word ↔ grammar.Derives production word := by
  induction h generalizing word with
  | short => rfl
  | @chain first fresh tail rest isNonterminal _ _ alternatives _ _ ih =>
      have hfresh : ∀ part, grammar.Derives [fresh] part ↔ grammar.Derives rest part := by
        intro part
        rw [← ih]
        refine (generates_nonterminal_iff isNonterminal).trans ?_
        rw [alternatives]
        simp only [List.mem_singleton, exists_eq_left]
      rw [derives_cons_iff, derives_cons_iff]
      simp only [hfresh]

/-! ### Shortening one production -/

theorem shorten_short (h : production.length ≤ 2) :
    grammar.shorten production = .ok (production, grammar) := by
  match production, h with
  | [], _ => rfl
  | [_], _ => rfl
  | [_, _], _ => rfl

theorem shorten_cons (first : Symbol) {rest : Production} (h : 2 ≤ rest.length) :
    grammar.shorten (first :: rest) = (grammar.shorten rest).bind fun (tail, extended) =>
      (extended.introduce [tail]).bind fun (fresh, grown) => .ok ([first, fresh], grown) := by
  match rest, h with
  | _ :: _ :: _, _ => rfl

/-- A free letter names the short form of the rest, and then a pair stands for the whole. -/
theorem Shortens.cons {extended : Grammar} {first fresh : Symbol} {rest tail : Production}
    {others : List Symbol} (hlong : 2 ≤ rest.length)
    (hshortens : Shortens grammar [] [rest] (rest.length - 2) extended)
    (hunfolds : extended.Unfolds grammar.keys tail rest) (hfree : extended.free = fresh :: others) :
    Shortens grammar [] [first :: rest] (rest.length - 2 + 1) (extended.addRule fresh [tail]) ∧
      (extended.addRule fresh [tail]).Unfolds grammar.keys [first, fresh] (first :: rest) := by
  have hadd := Extends.addRule hfree [tail]
  obtain ⟨hnonterminal, habsent⟩ := mem_free.1 (hfree ▸ List.mem_cons_self)
  have hlonger : 2 < (first :: rest).length := by
    rw [List.length_cons]
    omega
  have hwhole : Shortens grammar [] [first :: rest] (rest.length - 2) extended := by
    apply hshortens.mono
    intro source hsource _
    rw [List.mem_singleton.1 hsource]
    exact ⟨_, List.mem_cons_self, hlonger, List.subset_cons_self _ _⟩
  refine ⟨?_, ?_⟩
  · obtain ⟨x, y, rfl⟩ := hunfolds.exists_eq_pair hlong
    apply hwhole.addPair hfree
    intro symbol hsymbol
    apply (hunfolds.mem symbol hsymbol).imp_left
    intro hmem
    exact ⟨_, List.mem_cons_self, hlonger, List.mem_cons_of_mem _ hmem⟩
  · have hkey : fresh ∈ (extended.addRule fresh [tail]).keys := by
      rw [hadd.keys_eq, hfree]
      exact List.mem_append_right _ List.mem_cons_self
    refine .chain hnonterminal hkey (fun hold => habsent (hshortens.mem_keys hold))
      (alternatives_addRule_self habsent [tail]) hlong ?_
    exact hunfolds.mono (fun _ => hadd.mem_keys) fun left hleft _ => hadd.alternatives_eq left hleft

theorem shorten_of_le (grammar : Grammar) (production : Production)
    (h : production.length - 2 ≤ grammar.free.length) :
    ∃ short grown, grammar.shorten production = .ok (short, grown) ∧
      Shortens grammar [] [production] (production.length - 2) grown ∧
      grown.Unfolds grammar.keys short production := by
  induction production with
  | nil => exact ⟨[], grammar, rfl, (Shortens.refl grammar).mono (by simp), .short (by simp)⟩
  | cons first rest ih =>
      rw [List.length_cons] at h ⊢
      by_cases hlong : 2 ≤ rest.length
      · obtain ⟨tail, extended, hok, hshortens, hunfolds⟩ := ih (by omega)
        obtain ⟨fresh, others, hfree⟩ : ∃ fresh others, extended.free = fresh :: others := by
          apply List.exists_cons_of_length_pos
          rw [hshortens.free_eq, List.length_drop]
          omega
        obtain ⟨hwhole, hpair⟩ := hshortens.cons hlong hunfolds hfree
        have hcount : rest.length + 1 - 2 = rest.length - 2 + 1 := by omega
        refine ⟨[first, fresh], extended.addRule fresh [tail], ?_, hcount ▸ hwhole, hpair⟩
        rw [shorten_cons first hlong, hok]
        simp only [Except.bind]
        rw [introduce_of_free_cons hfree]
      · have hshort : (first :: rest).length ≤ 2 := by
          rw [List.length_cons]
          omega
        have hcount : rest.length + 1 - 2 = 0 := by omega
        refine ⟨_, grammar, shorten_short hshort, ?_, .short hshort⟩
        rw [hcount]
        exact (Shortens.refl grammar).mono (by simp)

theorem shorten_of_lt (h : grammar.free.length < production.length - 2) :
    grammar.shorten production = .error .poolExhausted := by
  induction production with
  | nil => simp at h
  | cons first rest ih =>
      rw [List.length_cons] at h
      have hlong : 2 ≤ rest.length := by omega
      rw [shorten_cons first hlong]
      by_cases hrest : grammar.free.length < rest.length - 2
      · rw [ih hrest]
        rfl
      · -- the letters run out at the last pair
        obtain ⟨tail, extended, hok, hshortens, -⟩ :=
          shorten_of_le grammar rest (by omega)
        have hfree : extended.free = [] := by
          rw [hshortens.free_eq, List.drop_eq_nil_iff]
          omega
        rw [hok]
        simp only [Except.bind]
        rw [introduce_of_free_nil hfree]

/-! ### Shortening many productions -/

theorem shortenEach_of_le (grammar : Grammar) (productions : List Production)
    (h : excess productions ≤ grammar.free.length) :
    ∃ shorts grown, grammar.shortenEach productions = .ok (shorts, grown) ∧
      Shortens grammar [] productions (excess productions) grown ∧
      List.Forall₂ (grown.Unfolds grammar.keys) shorts productions := by
  induction productions generalizing grammar with
  | nil => exact ⟨[], grammar, rfl, .refl grammar, .nil⟩
  | cons production productions ih =>
      rw [excess_cons] at h ⊢
      obtain ⟨short, extended, hok, hshortens, hunfolds⟩ :=
        shorten_of_le grammar production (by omega)
      have hleft : excess productions ≤ extended.free.length := by
        rw [hshortens.free_eq, List.length_drop]
        omega
      obtain ⟨shorts, grown, hoks, hmany, hforall⟩ := ih extended hleft
      refine ⟨short :: shorts, grown, ?_, hshortens.trans hmany (by simp), .cons ?_ ?_⟩
      · rw [shortenEach, hok]
        simp only [bind, Except.bind, hoks]
        rfl
      · exact hunfolds.mono (fun _ => hmany.mem_keys) fun left hleft _ =>
          hmany.kept left hleft List.not_mem_nil
      · exact hforall.imp fun _ _ hunfolds => hunfolds.anti fun _ => hshortens.mem_keys

theorem shortenEach_of_lt {productions : List Production}
    (h : grammar.free.length < excess productions) :
    grammar.shortenEach productions = .error .poolExhausted := by
  induction productions generalizing grammar with
  | nil => simp [excess] at h
  | cons production productions ih =>
      rw [excess_cons] at h
      rw [shortenEach]
      by_cases hfirst : grammar.free.length < production.length - 2
      · rw [shorten_of_lt hfirst]
        rfl
      · obtain ⟨short, extended, hok, hshortens, -⟩ :=
          shorten_of_le grammar production (by omega)
        have hrest : extended.free.length < excess productions := by
          rw [hshortens.free_eq, List.length_drop]
          omega
        rw [hok]
        simp only [bind, Except.bind, ih hrest]

theorem shortenRules_of_le (grammar : Grammar) {rules : List (Symbol × List Production)}
    (hkeys : ∀ left ∈ rules.map Prod.fst, left ∈ grammar.keys)
    (hnodup : (rules.map Prod.fst).Nodup)
    (h : excess (rules.flatMap Prod.snd) ≤ grammar.free.length) :
    ∃ grown, grammar.shortenRules rules = .ok grown ∧
      Shortens grammar (rules.map Prod.fst) (rules.flatMap Prod.snd)
        (excess (rules.flatMap Prod.snd)) grown ∧
      ∀ rule ∈ rules,
        List.Forall₂ (grown.Unfolds grammar.keys) (grown.alternatives rule.1) rule.2 := by
  induction rules generalizing grammar with
  | nil => exact ⟨grammar, rfl, .refl grammar, by simp⟩
  | cons rule rules ih =>
      obtain ⟨left, right⟩ := rule
      simp only [List.flatMap_cons, excess_append] at h ⊢
      rw [List.map_cons, List.nodup_cons] at hnodup
      obtain ⟨shorts, extended, hok, hshortens, hforall⟩ :=
        shortenEach_of_le grammar right (by omega)
      have hleft : left ∈ grammar.keys := hkeys left List.mem_cons_self
      have hset := Shortens.setAlternatives (hshortens.mem_keys hleft) shorts
      have hboth := hshortens.setRow hleft shorts
      have hrest : ∀ other ∈ rules.map Prod.fst, other ∈ grammar.keys := fun other hother =>
        hkeys other (List.mem_cons_of_mem _ hother)
      obtain ⟨grown, hoks, hmany, hrules⟩ := ih (extended.setAlternatives left shorts)
        (fun other hother => hboth.mem_keys (hrest other hother)) hnodup.2 (by
          rw [hboth.free_eq, List.length_drop]
          omega)
      refine ⟨grown, ?_, hboth.trans hmany hrest, ?_⟩
      · rw [shortenRules, hok]
        exact hoks
      · intro rule hrule
        rcases List.mem_cons.1 hrule with rfl | hrule
        · have hsame : grown.alternatives left = shorts := by
            rw [hmany.kept left (hboth.mem_keys hleft) hnodup.1, alternatives_setAlternatives,
              if_pos rfl]
          rw [hsame]
          refine hforall.imp fun _ _ hunfolds => hunfolds.mono ?_ fun other hother hnew => ?_
          · exact fun _ hmem => hmany.mem_keys (hset.mem_keys hmem)
          · have hne : other ≠ left := fun heq => hnew (heq ▸ hleft)
            rw [hmany.kept other (hset.mem_keys hother) fun hmem => hnew (hrest other hmem),
              alternatives_setAlternatives, if_neg hne]
        · exact (hrules rule hrule).imp fun _ _ hunfolds =>
            hunfolds.anti fun _ => hboth.mem_keys

theorem shortenRules_of_lt {rules : List (Symbol × List Production)}
    (hkeys : ∀ left ∈ rules.map Prod.fst, left ∈ grammar.keys)
    (h : grammar.free.length < excess (rules.flatMap Prod.snd)) :
    grammar.shortenRules rules = .error .poolExhausted := by
  induction rules generalizing grammar with
  | nil => simp [excess] at h
  | cons rule rules ih =>
      obtain ⟨left, right⟩ := rule
      simp only [List.flatMap_cons, excess_append] at h
      rw [shortenRules]
      by_cases hfirst : grammar.free.length < excess right
      · rw [shortenEach_of_lt hfirst]
        rfl
      · obtain ⟨shorts, extended, hok, hshortens, -⟩ :=
          shortenEach_of_le grammar right (by omega)
        have hleft : left ∈ grammar.keys := hkeys left List.mem_cons_self
        have hboth := hshortens.setRow hleft shorts
        have hrest : ∀ other ∈ rules.map Prod.fst,
            other ∈ (extended.setAlternatives left shorts).keys := fun other hother =>
          hboth.mem_keys (hkeys other (List.mem_cons_of_mem _ hother))
        rw [hok]
        apply ih hrest
        rw [hboth.free_eq, List.length_drop]
        omega

/-! ### The binary grammar -/

/-- The outcome of shortening every rule where it stands. -/
structure Binarization (grammar result : Grammar) : Prop
    extends Shortens grammar grammar.keys grammar.rightSides (excess grammar.rightSides) result
    where
  unfolds : ∀ left ∈ grammar.keys, List.Forall₂ (result.Unfolds grammar.keys)
    (result.alternatives left) (grammar.alternatives left)

theorem binarize_of_le (h : excess grammar.rightSides ≤ grammar.free.length) :
    ∃ result, grammar.binarize = .ok result ∧ Binarization grammar result := by
  obtain ⟨result, hok, hshortens, hrules⟩ :=
    shortenRules_of_le grammar (fun _ hleft => hleft) grammar.nodup_keys h
  refine ⟨result, hok, hshortens, fun left hleft => ?_⟩
  apply hrules (left, grammar.alternatives left)
  rw [entries_eq]
  exact List.mem_map.2 ⟨left, hleft, rfl⟩

theorem binarize_of_lt (h : grammar.free.length < excess grammar.rightSides) :
    grammar.binarize = .error .poolExhausted :=
  shortenRules_of_lt (fun _ hleft => hleft) h

theorem binarization_of_ok {result : Grammar} (h : grammar.binarize = .ok result) :
    Binarization grammar result := by
  rcases Nat.lt_or_ge grammar.free.length (excess grammar.rightSides) with hlt | hle
  · rw [binarize_of_lt hlt] at h
    cases h
  · obtain ⟨other, hok, hbinarization⟩ := binarize_of_le hle
    rw [hok] at h
    cases h
    exact hbinarization

theorem exists_mem_of_forall₂ {α β : Type} {relation : α → β → Prop} {xs : List α} {ys : List β}
    (h : List.Forall₂ relation xs ys) {x : α} (hx : x ∈ xs) : ∃ y ∈ ys, relation x y := by
  induction h with
  | nil => cases hx
  | cons hrelation _ ih =>
      rcases List.mem_cons.1 hx with rfl | hx
      · exact ⟨_, List.mem_cons_self, hrelation⟩
      · obtain ⟨y, hy, h⟩ := ih hx
        exact ⟨y, List.mem_cons_of_mem _ hy, h⟩

namespace Binarization

variable {result : Grammar} {left : Symbol}

/-- An alternative of the binary grammar was there before or is a pair from a long alternative. -/
theorem mem_alternatives (h : Binarization grammar result)
    (hproduction : production ∈ result.alternatives left) :
    (production ∈ grammar.alternatives left ∧ production.length ≤ 2) ∨
      ∃ first second, production = [first, second] ∧ ∀ symbol ∈ [first, second],
        (∃ source ∈ grammar.rightSides, 2 < source.length ∧ symbol ∈ source) ∨
          symbol ∈ result.keys ∧ symbol ∉ grammar.keys := by
  by_cases hleft : left ∈ grammar.keys
  · obtain ⟨source, hsource, hunfolds⟩ := exists_mem_of_forall₂ (h.unfolds left hleft) hproduction
    by_cases hlong : 2 < source.length
    · obtain ⟨first, second, rfl⟩ := hunfolds.exists_eq_pair (Nat.le_of_lt hlong)
      refine .inr ⟨first, second, rfl, fun symbol hsymbol => ?_⟩
      exact (hunfolds.mem symbol hsymbol).imp_left fun hmem =>
        ⟨source, mem_rightSides.2 ⟨left, hsource⟩, hlong, hmem⟩
    · cases hunfolds with
      | short isShort => exact .inl ⟨hsource, isShort⟩
      | chain _ _ _ _ isLong =>
          rw [List.length_cons] at hlong
          omega
  · obtain ⟨first, second, halternatives, hsymbols⟩ :=
      h.named left (mem_keys_of_mem_alternatives hproduction) hleft
    rw [halternatives] at hproduction
    exact .inr ⟨first, second, List.mem_singleton.1 hproduction, hsymbols⟩

/-- The binary grammar with the long alternatives back in their places. -/
def restored (grammar result : Grammar) : Grammar :=
  result.mapAlternatives fun left right =>
    if left ∈ grammar.keys then grammar.alternatives left else right

theorem alternatives_restored (h : Binarization grammar result) :
    (restored grammar result).alternatives left =
      if left ∈ grammar.keys then grammar.alternatives left else result.alternatives left := by
  by_cases hleft : left ∈ result.keys
  · exact alternatives_mapAlternatives _ hleft
  · have hleft' : left ∉ (restored grammar result).keys := by
      rwa [restored, keys_mapAlternatives]
    rw [if_neg fun hold => hleft (h.mem_keys hold), alternatives_eq_nil hleft,
      alternatives_eq_nil hleft']

theorem generates_restored_iff (h : Binarization grammar result) {symbol : Symbol}
    {word : List Symbol} :
    result.Generates symbol word ↔ (restored grammar result).Generates symbol word := by
  refine generates_iff_of_forms (fun left production hproduction word hderives => ?_)
    fun left production hproduction word hderives => ?_
  · rw [h.alternatives_restored]
    by_cases hleft : left ∈ grammar.keys
    · obtain ⟨source, hsource, hunfolds⟩ :=
        exists_mem_of_forall₂ (h.unfolds left hleft) hproduction
      have hunfolds' : (restored grammar result).Unfolds grammar.keys production source := by
        apply hunfolds.mono (by simp [restored])
        intro other _ hnew
        rw [h.alternatives_restored, if_neg hnew]
      rw [if_pos hleft]
      exact ⟨source, hsource, hunfolds'.derives_iff.1 hderives⟩
    · rw [if_neg hleft]
      exact ⟨production, hproduction, hderives⟩
  · rw [h.alternatives_restored] at hproduction
    split at hproduction
    · rename_i hleft
      obtain ⟨short, hshort, hunfolds⟩ :=
        exists_mem_of_forall₂ (h.unfolds left hleft).flip hproduction
      exact ⟨short, hshort, hunfolds.derives_iff.2 hderives⟩
    · exact ⟨production, hproduction, hderives⟩

theorem generates_iff (h : Binarization grammar result) (hclosed : grammar.Closed)
    {symbol : Symbol} (hsymbol : symbol ∈ grammar.keys) {word : List Symbol} :
    result.Generates symbol word ↔ grammar.Generates symbol word := by
  rw [h.generates_restored_iff]
  refine generates_iff_of_agree hclosed (fun left hleft => ?_) hsymbol
  rw [h.alternatives_restored, if_pos hleft]

end Binarization

end ChomskyForm.Grammar
