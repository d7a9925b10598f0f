import EntityLint.Proofs.Mapping.Ownership

/-!
# Links that stay in a file

Tokens refer to others by index: to the ends of their pairs, to the tags of doc comments and to the
owners around them.

* `Token.group?`: the pair or group that opens at a token;
* `SourceFile.Linked`: all these indices are there, and a pair ends behind its beginning;
* `linked_of_parse`: the files of all texts are linked.
-/

namespace EntityLint

open Pairing

/-- The pair or attribute group that opens at a token. -/
def Token.group? (t : Token) : Option Range :=
  match t.kind with
  | .openRound => t.parens
  | .openSquare => t.brackets
  | .attributeOpen => t.attrGroup
  | .openCurly => t.scope
  | _ => none

namespace SourceFile

/-- All indices that the tokens of a file refer to are in the file. -/
structure Linked (f : SourceFile) : Prop where
  range : ∀ {i : ℕ} {t : Token} {r : Range}, f.tokens[i]? = some t →
    some r ∈ [t.parens, t.scope, t.brackets, t.attrGroup, t.comment] →
    r.opener < r.closer ∧ r.closer < f.tokens.size
  /-- What opens at a token ends behind it. -/
  group : ∀ {i : ℕ} {t : Token} {r : Range}, f.tokens[i]? = some t → t.group? = some r →
    i < r.closer
  /-- The end of a doc comment carries the doc comment that it ends. -/
  docClose : ∀ {i : ℕ} {t : Token} {r : Range}, f.tokens[i]? = some t → t.kind = .docClose →
    t.comment = some r → r.closer = i
  /-- The end of an attribute group carries a group that begins before it. -/
  attributeClose : ∀ {i : ℕ} {t : Token} {r : Range}, f.tokens[i]? = some t →
    t.kind = .attributeClose → t.attrGroup = some r → r.opener < i
  tags : ∀ {i : ℕ} {t : Token}, f.tokens[i]? = some t → ∀ j ∈ t.docTags, j < f.tokens.size
  conditions : ∀ {i : ℕ} {t : Token}, f.tokens[i]? = some t →
    ∀ x ∈ t.conditions, x.1 < f.tokens.size

end SourceFile

namespace Pairing

theorem mem_of_rangeAt {pairs : List Range} {owners : List (ℕ × ℕ)} {i : ℕ} {r : Range}
    (h : rangeAt pairs owners i = some r) : r ∈ pairs := by
  unfold rangeAt at h
  split at h
  · next hfind => exact Option.some.inj h ▸ List.mem_of_find?_eq_some hfind
  · obtain ⟨o, -, hfind⟩ := Option.bind_eq_some_iff.1 h
    exact List.mem_of_find?_eq_some hfind

end Pairing

namespace SourceFile

open Token

variable {path : String} {source : Text} {f : SourceFile}

/-- **The links of the files of all texts stay in them.** -/
theorem linked_of_parse (h : parse path source = .ok f) : f.Linked := by
  have hpaired := wellPaired_of_parse h
  have hconditions := @conditions_of_parse _ _ _ h
  have hdocs := fun {i t} => @exists_docComment_of_parse _ _ _ i t h
  obtain ⟨tokens, htokens, rfl⟩ := exists_tokens_of_parse h
  obtain ⟨pieces, pairs, hpieces, hpairs, rfl⟩ := exists_pieces_of_tokenize htokens
  have hlength := congrArg List.length
    (Lexeme.text_resolveNullable none (pieces.flatMap Piece.lexemes))
  rw [List.length_map, List.length_map] at hlength
  generalize hls : Lexeme.resolveNullable none (pieces.flatMap Piece.lexemes) = ls at *
  have hsize : (Token.ofLexemes ls (DocComment.all 0 pieces) pairs).toArray.size = ls.length := by
    rw [List.size_toArray, length_ofLexemes]
  have hmatches : ∀ family, ∀ r ∈ pairs.ofFamily family,
      r.opener < r.closer ∧ r.closer < ls.length := by
    intro family r hr
    have hr := (mem_ofFamily_iff hpairs family).1 hr
    have hlt := lt_length_of_closesAt hr.closes
    rw [List.length_map] at hlt
    exact ⟨hr.lt, hlt⟩
  have hgroup : ∀ {i : ℕ} {t : Token} {r : Range},
      (Token.ofLexemes ls (DocComment.all 0 pieces) pairs)[i]? = some t →
      t.attrGroup = some r → r ∈ pairs.square := by
    intro i t r ht hr
    obtain ⟨l, -, hdesc⟩ := describes_of_getElem? ht
    rw [hdesc.attrGroup] at hr
    cases hnone : (attributesFrom (pairs.groups (ls.map Lexeme.kind)) 0 none
        (ls.map Lexeme.kind))[i]? with
    | none => rw [hnone] at hr; cases hr
    | some g =>
      rw [hnone] at hr
      obtain rfl : g = some r := hr
      have hmem := (mem_of_attributesFrom (fun s hs => ((mem_groups_iff hpairs).1 hs).1.lt)
        (fun s hs => by cases hs) hnone).1
      exact (List.mem_filter.1 hmem).1
  constructor
  case range =>
    intro i t r ht hr
    obtain ⟨pieces', hpieces', -, hcomment, -⟩ := hdocs ht
    cases hpieces.symm.trans hpieces'
    rw [List.getElem?_toArray] at ht
    rw [hsize]
    obtain ⟨l, -, hdesc⟩ := describes_of_getElem? ht
    simp only [List.mem_cons, List.not_mem_nil, or_false] at hr
    rcases hr with hr | hr | hr | hr | hr
    · rw [hdesc.parens] at hr
      exact hmatches .round r (mem_of_rangeAt hr.symm)
    · rw [hdesc.scope] at hr
      exact hmatches .curly r (mem_of_rangeAt hr.symm)
    · rw [hdesc.brackets] at hr
      exact hmatches .square r (List.mem_filter.1 (mem_of_rangeAt hr.symm)).1
    · exact hmatches .square r (hgroup ht hr.symm)
    · obtain ⟨d, hd, rfl⟩ := hcomment r hr.symm
      exact ⟨DocComment.opener_lt_closer hd, hlength ▸ DocComment.closer_lt_length hd⟩
  case group =>
    -- an opener has a closer of its family, and carries the pair of both
    intro i t r ht hr
    rw [List.getElem?_toArray] at ht
    have hkind := getElem?_kinds ht
    have hown : ∀ family : Family, family.opens t.kind = true → t.kind ≠ .attributeClose →
        ∃ c, family.Matches (kinds _) ⟨i, c⟩ := fun _ hopens hne =>
      (hpaired.closer _ i ⟨t.kind, hkind hne, hopens⟩).exists
    unfold Token.group? at hr
    split at hr
    · next hk =>
      obtain ⟨c, hc⟩ := hown .round (by rw [hk]; rfl) (by rw [hk]; nofun)
      rw [hpaired.round ⟨i, c⟩ i t hc (.inl rfl) ht] at hr
      cases hr
      exact hc.lt
    · next hk =>
      obtain ⟨c, hc⟩ := hown .square (by rw [hk]; rfl) (by rw [hk]; nofun)
      rw [hpaired.square ⟨i, c⟩ i t hc (by rw [hkind (by rw [hk]; nofun), hk]) (.inl rfl) ht] at hr
      cases hr
      exact hc.lt
    · next hk =>
      obtain ⟨c, hc⟩ := hown .square (by rw [hk]; rfl) (by rw [hk]; nofun)
      -- a group that begins inside of another one carries the outer one, which ends no earlier
      obtain ⟨g, -, -, -, hle, hg⟩ :=
        hpaired.group ⟨i, c⟩ hc (by rw [hkind (by rw [hk]; nofun), hk])
      rw [hg i t (.inl rfl) ht] at hr
      cases hr
      exact Nat.lt_of_lt_of_le hc.lt hle
    · next hk =>
      obtain ⟨c, hc⟩ := hown .curly (by rw [hk]; rfl) (by rw [hk]; nofun)
      rw [hpaired.curly ⟨i, c⟩ i t hc (.inl rfl) ht] at hr
      cases hr
      exact hc.lt
    · cases hr
  case docClose => exact fun ht hk hr => (comment_of_docClose h ht hk hr).2
  case attributeClose => exact fun ht hk hr => attrGroup_of_attributeClose h ht hk hr
  case tags =>
    intro i t ht j hj
    obtain ⟨pieces', hpieces', -, -, htags⟩ := hdocs ht
    cases hpieces.symm.trans hpieces'
    rw [hsize, hlength]
    rcases htags with hnone | ⟨d, hd, htags⟩
    · rw [hnone] at hj
      cases hj
    · rw [htags] at hj
      obtain ⟨-, hlt, -⟩ := (DocComment.mem_tags_iff hd).1 hj
      exact hlt.trans (DocComment.closer_lt_length hd)
  case conditions =>
    rintro i t ht ⟨w, k⟩ hx
    rw [hconditions ht] at hx
    obtain ⟨r, hr⟩ := mem_ownersAround.1 hx
    obtain ⟨u, hu, -⟩ := hr.token
    rw [List.size_toArray]
    exact (List.getElem?_eq_some_iff.1 hu).1

end SourceFile

end EntityLint
