import ChomskyForm.Proofs.Unique

/-!
# What the letters of a binary grammar stand for

A long production is shortened from its end: each letter that is taken names a proper end of the
production, of at least two symbols, and derives just what this end derives.
-/

namespace ChomskyForm.Grammar

variable {grammar grown result : Grammar} {old fewer : List Symbol} {letter : Symbol}
  {production short : Production} {shorts productions sources others : List Production}

/-- The only alternative of the letter stands for a proper end of one of the productions. -/
def NamesEnd (grammar : Grammar) (old : List Symbol) (sources : List Production)
    (letter : Symbol) : Prop :=
  ∃ source ∈ sources, ∃ tail rest, rest <:+ source ∧ 2 ≤ rest.length ∧
    rest.length < source.length ∧ grammar.alternatives letter = [tail] ∧
    grammar.Unfolds old tail rest

theorem NamesEnd.mono (h : grammar.NamesEnd old sources letter) (hletter : letter ∈ grammar.keys)
    (hnew : letter ∉ old) (hkeys : grammar.keys ⊆ grown.keys)
    (hkept : ∀ left ∈ grammar.keys, left ∉ old →
      grown.alternatives left = grammar.alternatives left) :
    grown.NamesEnd old sources letter := by
  obtain ⟨source, hsource, tail, rest, hsuffix, hlong, hproper, halternatives, hunfolds⟩ := h
  refine ⟨source, hsource, tail, rest, hsuffix, hlong, hproper, ?_, hunfolds.mono hkeys hkept⟩
  rw [hkept letter hletter hnew]
  exact halternatives

theorem NamesEnd.anti (h : grammar.NamesEnd old sources letter) (hle : fewer ⊆ old) :
    grammar.NamesEnd fewer sources letter := by
  obtain ⟨source, hsource, tail, rest, hsuffix, hlong, hproper, halternatives, hunfolds⟩ := h
  exact ⟨source, hsource, tail, rest, hsuffix, hlong, hproper, halternatives, hunfolds.anti hle⟩

/-- An end of a production among the sources is an end of whatever ends in this production. -/
theorem NamesEnd.of_suffixes (h : grammar.NamesEnd old sources letter)
    (hle : ∀ source ∈ sources, ∃ other ∈ others, source <:+ other) :
    grammar.NamesEnd old others letter := by
  obtain ⟨source, hsource, tail, rest, hsuffix, hlong, hproper, hrest⟩ := h
  obtain ⟨other, hother, hends⟩ := hle source hsource
  exact ⟨other, hother, tail, rest, hsuffix.trans hends, hlong,
    Nat.lt_of_lt_of_le hproper hends.length_le, hrest⟩

theorem NamesEnd.of_subset (h : grammar.NamesEnd old sources letter) (hle : sources ⊆ others) :
    grammar.NamesEnd old others letter :=
  h.of_suffixes fun source hsource => ⟨source, hle hsource, List.suffix_rfl⟩

/-! ### Through the recursion -/

theorem namesEnd_of_shorten (h : grammar.shorten production = .ok (short, grown)) :
    ∀ letter ∈ grown.keys, letter ∉ grammar.keys →
      grown.NamesEnd grammar.keys [production] letter := by
  induction production generalizing short grown with
  | nil =>
      cases h
      exact fun letter hold hnew => absurd hold hnew
  | cons first rest ih =>
      by_cases hlong : 2 ≤ rest.length
      · rw [shorten_cons first hlong] at h
        obtain ⟨⟨tail, extended⟩, hrest, h⟩ := exists_ok_of_bind h
        obtain ⟨⟨fresh, last⟩, hintroduce, h⟩ := exists_ok_of_bind h
        obtain ⟨others, hfree, rfl⟩ := exists_free_of_introduce hintroduce
        cases h
        obtain ⟨hshortens, hunfolds⟩ := shortens_of_shorten hrest
        have hadd := Extends.addRule hfree [tail]
        have hkept : ∀ left ∈ extended.keys, left ∉ grammar.keys →
            (extended.addRule fresh [tail]).alternatives left = extended.alternatives left :=
          fun left hleft _ => hadd.alternatives_eq left hleft
        intro letter hletter hnew
        by_cases hextended : letter ∈ extended.keys
        · refine ((ih hrest letter hextended hnew).mono hextended hnew
            (fun _ => hadd.mem_keys) hkept).of_suffixes fun source hsource => ?_
          rw [List.mem_singleton.1 hsource]
          exact ⟨first :: rest, List.mem_cons_self, List.suffix_cons first rest⟩
        · -- the letter taken last names all but the first symbol
          rw [hadd.keys_eq, hfree, List.mem_append] at hletter
          have heq : letter = fresh := List.mem_singleton.1 (hletter.resolve_left hextended)
          subst heq
          exact ⟨first :: rest, List.mem_cons_self, tail, rest, List.suffix_cons first rest, hlong,
            Nat.lt_succ_self _, alternatives_addRule_self hextended [tail],
            hunfolds.mono (fun _ => hadd.mem_keys) hkept⟩
      · rw [shorten_short (by rw [List.length_cons]; omega)] at h
        cases h
        exact fun letter hold hnew => absurd hold hnew

theorem namesEnd_of_shortenEach (h : grammar.shortenEach productions = .ok (shorts, grown)) :
    ∀ letter ∈ grown.keys, letter ∉ grammar.keys →
      grown.NamesEnd grammar.keys productions letter := by
  induction productions generalizing grammar shorts with
  | nil =>
      cases h
      exact fun letter hold hnew => absurd hold hnew
  | cons production productions ih =>
      obtain ⟨⟨short, extended⟩, hshort, h⟩ := exists_ok_of_bind h
      obtain ⟨⟨others, last⟩, hrest, h⟩ := exists_ok_of_bind h
      cases h
      have hfirst := (shortens_of_shorten hshort).1
      have hmany := shortens_of_shortenEach hrest
      intro letter hletter hnew
      by_cases hextended : letter ∈ extended.keys
      · refine ((namesEnd_of_shorten hshort letter hextended hnew).mono hextended hnew
          (fun _ => hmany.mem_keys) fun left hleft _ => hmany.kept left hleft ?_).of_subset ?_
        · exact List.not_mem_nil
        · exact List.cons_subset.2 ⟨List.mem_cons_self, List.nil_subset _⟩
      · exact ((ih hrest letter hletter hextended).anti fun _ => hfirst.mem_keys).of_subset
          (List.subset_cons_self _ _)

theorem namesEnd_of_shortenRules {rules : List (Symbol × List Production)}
    (hkeys : ∀ left ∈ rules.map Prod.fst, left ∈ grammar.keys)
    (hnodup : (rules.map Prod.fst).Nodup) (h : grammar.shortenRules rules = .ok grown) :
    ∀ letter ∈ grown.keys, letter ∉ grammar.keys →
      grown.NamesEnd grammar.keys (rules.flatMap Prod.snd) letter := by
  induction rules generalizing grammar with
  | nil =>
      cases h
      exact fun letter hold hnew => absurd hold hnew
  | cons rule rules ih =>
      obtain ⟨left, right⟩ := rule
      obtain ⟨shorts, extended, hright, hfirst, hrules, hlater⟩ :=
        exists_of_shortenRules_cons hkeys hnodup h
      have hleft : left ∈ grammar.keys := hkeys left List.mem_cons_self
      have hrest : ∀ other ∈ rules.map Prod.fst, other ∈ grammar.keys := fun other hother =>
        hkeys other (List.mem_cons_of_mem _ hother)
      have hextends := shortens_of_shortenEach hright
      have hset := Shortens.setAlternatives (hextends.mem_keys hleft) shorts
      intro letter hletter hnew
      rw [List.flatMap_cons]
      by_cases hextended : letter ∈ extended.keys
      · refine ((namesEnd_of_shortenEach hright letter hextended hnew).mono hextended hnew
          (fun _ hkey => hlater.mem_keys (hset.mem_keys hkey)) ?_).of_subset
            (List.subset_append_left _ _)
        -- only symbols that were there before have their alternatives set
        intro other hother habsent
        rw [hlater.kept other (hset.mem_keys hother) fun hmem => habsent (hrest other hmem),
          hset.kept other hother fun hmem => habsent (List.mem_singleton.1 hmem ▸ hleft)]
      · have hnext : letter ∉ (extended.setAlternatives left shorts).keys := by
          rwa [keys_setAlternatives, if_pos (hextends.mem_keys hleft)]
        have hnamed := ih (fun other hother => hfirst.mem_keys (hrest other hother))
          (List.nodup_cons.1 hnodup).2 hrules letter hletter hnext
        exact (hnamed.anti fun _ => hfirst.mem_keys).of_subset (List.subset_append_right _ _)

theorem namesEnd_of_binarize (h : grammar.binarize = .ok result) (hletter : letter ∈ result.keys)
    (hnew : letter ∉ grammar.keys) :
    result.NamesEnd grammar.keys grammar.rightSides letter :=
  namesEnd_of_shortenRules (fun _ hkey => hkey) grammar.nodup_keys h letter hletter hnew

/-- A letter taken by the binarization of a closed grammar derives what an end of a long production
derived before. -/
theorem exists_end_generates_iff (h : grammar.binarize = .ok result) (hclosed : grammar.Closed)
    (hletter : letter ∈ result.keys) (hnew : letter ∉ grammar.keys) :
    ∃ source ∈ grammar.rightSides, ∃ rest, rest <:+ source ∧ 2 ≤ rest.length ∧
      rest.length < source.length ∧
      ∀ word, result.Generates letter word ↔ grammar.Derives rest word := by
  have hbinarization := binarization_of_ok h
  have hnonterminal := (mem_free.1 (hbinarization.mem_free_of_new hletter hnew)).1
  obtain ⟨source, hsource, tail, rest, hsuffix, hlong, hproper, halternatives, hunfolds⟩ :=
    namesEnd_of_binarize h hletter hnew
  obtain ⟨left, hleft⟩ := mem_rightSides.1 hsource
  have hsame : ∀ symbol ∈ rest, ∀ word,
      result.Generates symbol word ↔ grammar.Generates symbol word := by
    intro symbol hsymbol word
    by_cases hterminal : symbol.isTerminal = true
    · rw [generates_terminal_iff hterminal, generates_terminal_iff hterminal]
    · have hkey := hclosed left source hleft symbol (hsuffix.subset hsymbol)
        (Symbol.isTerminal_eq_false_iff.1 (Bool.eq_false_iff.2 hterminal))
      exact hbinarization.generates_iff hclosed hkey
  refine ⟨source, hsource, rest, hsuffix, hlong, hproper, fun word => ?_⟩
  calc result.Generates letter word
      ↔ result.Derives tail word := by
        rw [generates_nonterminal_iff hnonterminal, halternatives]
        simp only [List.mem_singleton, exists_eq_left]
    _ ↔ result.Derives rest word := hunfolds.derives_iff
    _ ↔ grammar.Derives rest word := derives_iff_of_generates_iff hsame

end ChomskyForm.Grammar
