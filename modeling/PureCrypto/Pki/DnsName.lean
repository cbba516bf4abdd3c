import PureCrypto.Pki.IpLiteral

/-!
# DNS names

How `tls/pki/verify.rs` compares DNS names: `dns_name_matches` for a host against a name of the
certificate, `dns_in_subtree` for a name against a constraint.  Both drop one trailing dot and fold
ASCII case first.
-/
namespace PureCrypto.Pki
open List
open AsciiText (lower eqIgnoreCase splitOnce cons_suffix_append mem_lower)
def stripTrailingDot (name : Bytes) : Bytes :=
  if name.getLast? = some dot ∧ name.dropLast ≠ [] then name.dropLast else name

def dnsNameMatches (pattern host : Bytes) : Bool :=
  let pattern := stripTrailingDot pattern
  let host := stripTrailingDot host
  if looksLikeIp pattern || looksLikeIp host then false
  else match List.isPrefixOf? [star, dot] pattern with
    | some suffix =>
      suffix.contains dot && match splitOnce dot host with
        | some (label, rest) => !label.isEmpty && !rest.isEmpty && eqIgnoreCase rest suffix
        | none => false
    | none => !pattern.isEmpty && eqIgnoreCase pattern host

/-- `name` has `suffix` behind a dot. -/
def endsBelow (name suffix : Bytes) : Bool :=
  decide (suffix.length < name.length) &&
    name[name.length - suffix.length - 1]? == some dot &&
    name.drop (name.length - suffix.length) == suffix

def dnsInSubtree (name base : Bytes) : Bool :=
  let name := lower (stripTrailingDot name)
  let base := lower (stripTrailingDot base)
  if base.isEmpty then true
  else match List.isPrefixOf? [dot] base with
    | some suffix => endsBelow name suffix
    | none => name == base || endsBelow name base

/-- A wildcard counts as the subtree it spans. -/
def excludedDnsHit (name base : Bytes) : Bool :=
  dnsInSubtree name base || (List.isPrefixOf? [star, dot] name).any fun apex => dnsInSubtree base apex

def cnIsPlausibleDnsName (cn : Bytes) : Bool :=
  !cn.isEmpty && cn.all (fun b => 0x20 ≤ b && b ≤ 0x7E) && !looksLikeIp cn

/-- What the comparisons see of a name. -/
def normal (name : Bytes) : Bytes := lower (stripTrailingDot name)
variable {s name suffix base pattern : Bytes}
theorem isPrefixOf?_eq_some {p t : Bytes} : List.isPrefixOf? p s = some t ↔ s = p ++ t := by
  induction p generalizing s with
  | nil => simp [List.isPrefixOf?,eq_comm]
  | cons a p ih =>
    cases s with
    | nil => simp [List.isPrefixOf?]
    | cons b s =>
      by_cases hab : a = b
      · simp [List.isPrefixOf?,hab,ih]
      · simp [List.isPrefixOf?,hab,Ne.symm hab]

theorem endsBelow_iff : endsBelow name suffix = true ↔ dot :: suffix <:+ name := by
  simp only [endsBelow,Bool.and_eq_true,decide_eq_true_eq,beq_iff_eq]
  constructor
  · rintro ⟨⟨hlt,hdot⟩,hdrop⟩
    obtain ⟨k,hk⟩ : ∃ k, name.length - suffix.length = k + 1 := ⟨name.length - suffix.length - 1,by omega⟩
    rw [hk,Nat.add_sub_cancel] at hdot
    rw [hk] at hdrop
    have hcons : name.drop k = dot :: suffix := by
      rw [← getElem_cons_drop (List.getElem?_eq_some_iff.mp hdot).1,hdrop,(List.getElem?_eq_some_iff.mp hdot).2]
    rw [← hcons]
    exact drop_suffix k name
  · rintro ⟨front,rfl⟩
    have hlength : (front ++ dot :: suffix).length - suffix.length = front.length + 1 := by
      simp only [length_append,length_cons]
      omega
    rw [hlength]
    refine ⟨⟨?_,by simp⟩,by simp⟩
    omega

theorem dnsInSubtree_of_nil (h : normal base = []) : dnsInSubtree name base = true := by
  unfold normal at h
  simp [dnsInSubtree,h]

theorem dnsInSubtree_of_dot (h : normal base = dot :: suffix) :
    dnsInSubtree name base = true ↔ dot :: suffix <:+ normal name := by
  unfold normal at h
  have hstart : List.isPrefixOf? [dot] (dot :: suffix) = some suffix := isPrefixOf?_eq_some.mpr rfl
  rw [← endsBelow_iff,dnsInSubtree,h]
  rfl

theorem dnsInSubtree_of_label (hne : normal base ≠ []) (hdot : (normal base).head? ≠ some dot) :
    dnsInSubtree name base = true ↔ normal name = normal base ∨ dot :: normal base <:+ normal name := by
  have hstart : List.isPrefixOf? [dot] (normal base) = none := by
    cases h : List.isPrefixOf? [dot] (normal base) with
    | none => rfl
    | some suffix =>
      rw [isPrefixOf?_eq_some.mp h] at hdot
      exact absurd rfl hdot
  have hcode : dnsInSubtree name base =
      (normal name == normal base || endsBelow (normal name) (normal base)) := by
    unfold normal at hne hstart
    rw [dnsInSubtree,hstart,if_neg (by simpa using hne)]
    rfl
  rw [hcode,Bool.or_eq_true,beq_iff_eq,endsBelow_iff]

theorem dnsInSubtree_congr {name' : Bytes} (h : normal name = normal name') :
    dnsInSubtree name base = dnsInSubtree name' base := by
  unfold normal at h
  rw [dnsInSubtree,dnsInSubtree,h]

/-- A pattern whose first label is the wildcard, and a host with `label` in its place. -/
structure WildcardMatch (pattern host label tail : Bytes) : Prop where
  pattern_normal : normal pattern = star :: dot :: tail
  host_normal : normal host = label ++ dot :: tail
  dot_label : dot ∉ label
  tail_ne_nil : tail ≠ []
  apex : ∃ apex, pattern = star :: dot :: apex ∧ normal apex = tail

theorem lowerByte_dot : AsciiText.lowerByte dot = dot := rfl
theorem lowerByte_star : AsciiText.lowerByte star = star := rfl
theorem dot_mem_lower : dot ∈ lower s ↔ dot ∈ s := mem_lower (by decide)

theorem stripTrailingDot_apex {apex : Bytes} (hne : suffix ≠ [])
    (h : stripTrailingDot (star :: dot :: apex) = star :: dot :: suffix) : stripTrailingDot apex = suffix := by
  cases apex with
  | nil => simp [stripTrailingDot] at h
  | cons b apex =>
    unfold stripTrailingDot at h ⊢
    simp only [getLast?_cons_cons,dropLast_cons_cons] at h ⊢
    split_ifs at h with hdot <;> rw [List.cons.injEq,List.cons.injEq] at h
    · rw [if_pos ⟨hdot.1,by rw [h.2.2]; exact hne⟩,h.2.2]
    · rw [if_neg (fun hb => hdot ⟨hb.1,by simp⟩),h.2.2]

theorem prefix_of_stripTrailingDot (h : stripTrailingDot pattern = star :: dot :: suffix) :
    ∃ apex, pattern = star :: dot :: apex := by
  unfold stripTrailingDot at h
  split_ifs at h with hdot
  · have hconcat := dropLast_append_getLast? dot hdot.1
    rw [h] at hconcat
    exact ⟨suffix ++ [dot],hconcat.symm⟩
  · exact ⟨suffix,h⟩

theorem dnsNameMatches_cases {host : Bytes} (h : dnsNameMatches pattern host = true) :
    normal pattern = normal host ∨ ∃ label tail, WildcardMatch pattern host label tail := by
  unfold dnsNameMatches at h
  dsimp only at h
  split_ifs at h
  split at h
  · rename_i suffix hstart
    have hpattern := isPrefixOf?_eq_some.mp hstart
    split at h
    · rename_i label rest hsplit
      obtain ⟨hhost,hlabel⟩ := AsciiText.splitOnce_eq_some hsplit
      simp only [Bool.and_eq_true,eqIgnoreCase,beq_iff_eq,contains_iff_mem] at h
      obtain ⟨hdot,⟨hne,hrest⟩,heq⟩ := h
      have hsuffix : suffix ≠ [] := ne_nil_of_mem hdot
      obtain ⟨apex,hapex⟩ := prefix_of_stripTrailingDot hpattern
      right
      refine ⟨lower label,lower suffix,?_,?_,?_,?_,apex,hapex,?_⟩
      · simp [normal,hpattern,lowerByte_dot,lowerByte_star]
      · simp [normal,hhost,heq,lowerByte_dot]
      · rwa [dot_mem_lower]
      · simpa [AsciiText.lower_eq_nil] using hsuffix
      · rw [hapex] at hpattern
        rw [normal,stripTrailingDot_apex hsuffix hpattern]
    · simp at h
  · left
    rw [Bool.and_eq_true,eqIgnoreCase,beq_iff_eq] at h
    exact h.2
section Wildcard
variable {pattern host label tail base : Bytes}
/-- Behind the first label a wildcard and its host are the same. -/
theorem WildcardMatch.suffix_iff (h : WildcardMatch pattern host label tail) {x : Bytes} :
    dot :: x <:+ normal host ↔ dot :: x <:+ normal pattern := by
  have hstar : dot ∉ [star] := by decide
  rw [h.host_normal,h.pattern_normal,cons_suffix_append h.dot_label,
    ← singleton_append (l := dot :: tail),cons_suffix_append hstar]

theorem normal_cases (base : Bytes) : normal base = [] ∨ (∃ suffix, normal base = dot :: suffix) ∨
    (normal base ≠ [] ∧ (normal base).head? ≠ some dot) := by
  cases h : normal base with
  | nil => exact .inl rfl
  | cons b suffix =>
    by_cases hb : b = dot
    · exact .inr (.inl ⟨suffix,by rw [hb]⟩)
    · exact .inr (.inr ⟨cons_ne_nil _ _,by simpa using hb⟩)

theorem WildcardMatch.dnsInSubtree_apex (h : WildcardMatch pattern host label tail) {apex : Bytes}
    (hapex : normal apex = tail) (hbase : normal base = normal host) : dnsInSubtree base apex = true := by
  have hsuffix : dot :: tail <:+ normal base := by
    rw [hbase,h.host_normal]
    exact suffix_append _ _
  rcases normal_cases apex with hnil | ⟨suffix,hdot⟩ | ⟨hne,hhead⟩
  · exact dnsInSubtree_of_nil hnil
  · rw [dnsInSubtree_of_dot hdot,← hdot,hapex]
    exact (suffix_cons _ _).trans hsuffix
  · rw [dnsInSubtree_of_label hne hhead,hapex]
    exact .inr hsuffix

/-- A host in a subtree: its name in the certificate is in it, or spans it. -/
theorem excludedDnsHit_of_host (hmatch : dnsNameMatches pattern host = true)
    (h : dnsInSubtree host base = true) : excludedDnsHit pattern base = true := by
  rw [excludedDnsHit,Bool.or_eq_true]
  rcases dnsNameMatches_cases hmatch with heq | ⟨label,tail,hw⟩
  · exact .inl (by rwa [dnsInSubtree_congr heq])
  · rcases normal_cases base with hnil | ⟨suffix,hdot⟩ | ⟨hne,hhead⟩
    · exact .inl (dnsInSubtree_of_nil hnil)
    · rw [dnsInSubtree_of_dot hdot,hw.suffix_iff] at h
      exact .inl ((dnsInSubtree_of_dot hdot).mpr h)
    · rw [dnsInSubtree_of_label hne hhead] at h
      rcases h with heq | hsuffix
      · obtain ⟨apex,hpattern,hapex⟩ := hw.apex
        have hstart : List.isPrefixOf? [star, dot] pattern = some apex :=
          isPrefixOf?_eq_some.mpr hpattern
        rw [hstart]
        exact .inr (hw.dnsInSubtree_apex hapex heq.symm)
      · rw [hw.suffix_iff] at hsuffix
        exact .inl ((dnsInSubtree_of_label hne hhead).mpr (.inr hsuffix))

theorem mem_of_mem_normal {c : UInt8} (hc : c.toNat < 65) {name : Bytes} (h : c ∈ normal name) : c ∈ name := by
  rw [normal,mem_lower hc] at h
  unfold stripTrailingDot at h
  split_ifs at h
  · exact (dropLast_sublist _).subset h
  · exact h

theorem dnsInSubtree_host (hmatch : dnsNameMatches pattern host = true) (hstar : star ∉ base)
    (h : dnsInSubtree pattern base = true) : dnsInSubtree host base = true := by
  rcases dnsNameMatches_cases hmatch with heq | ⟨label,tail,hw⟩
  · rwa [← dnsInSubtree_congr heq]
  · rcases normal_cases base with hnil | ⟨suffix,hdot⟩ | ⟨hne,hhead⟩
    · exact dnsInSubtree_of_nil hnil
    · rw [dnsInSubtree_of_dot hdot,← hw.suffix_iff] at h
      exact (dnsInSubtree_of_dot hdot).mpr h
    · rw [dnsInSubtree_of_label hne hhead] at h
      rcases h with heq | hsuffix
      · -- a base that is itself the wildcard
        have hmem : star ∈ normal base := by
          rw [← heq,hw.pattern_normal]
          exact mem_cons_self
        exact absurd (mem_of_mem_normal (by decide) hmem) hstar
      · rw [← hw.suffix_iff] at hsuffix
        exact (dnsInSubtree_of_label hne hhead).mpr (.inr hsuffix)
end Wildcard
end PureCrypto.Pki
