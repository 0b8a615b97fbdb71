import MetricRelay.Proofs.Catalog.Indexed

/-!
# Locations and protocols

A location begins as the base location of its service does, so one location is
never both on the network and on disk.
-/

namespace MetricRelay

theorem Text.head?_dropEndWhile {p : Char → Bool} {c : Char} (h : p c = false) (cs : List Char) :
    (dropEndWhile p (c :: cs)).head? = some c := by
  rw [dropEndWhile, List.reverse_cons, List.head?_reverse]
  have hkept : (cs.reverse ++ [c]).dropWhile p = cs.reverse.dropWhile p ++ [c] := by
    rw [List.dropWhile_append]
    split
    · next hempty =>
      rw [List.isEmpty_iff.mp hempty, List.dropWhile_cons_of_neg (by simp [h])]
      rfl
    · rfl
  rw [hkept, List.getLast?_concat]

/-- Joining keeps the first character, unless that is a slash. -/
theorem Url.head?_join {base : String} {c : Char} (h : base.toList.head? = some c)
    (hslash : isSlash c = false) (path : String) : (join base path).toList.head? = some c := by
  obtain ⟨cs, hcs⟩ : ∃ cs, base.toList = c :: cs := by
    cases hbase : base.toList with
    | nil =>
      rw [hbase] at h
      cases h
    | cons first cs =>
      rw [hbase] at h
      cases h
      exact ⟨cs, rfl⟩
  rw [join, String.toList_ofList, joinChars, hcs]
  split
  · rfl
  · rw [List.head?_append, dropTrailing, Text.head?_dropEndWhile hslash]
    rfl

namespace Catalog

/-- The first character of a location tells the network from the disk. -/
def firstChar (p : Protocol) : Char := if p.isHttp then 'h' else 'f'

theorem isHttp_of_firstChar {p p' : Protocol} (h : firstChar p = firstChar p') :
    p.isHttp = p'.isHttp := by
  revert h
  cases p <;> cases p' <;> decide

theorem Service.head?_baseUrl (s : Service) :
    s.baseUrl.toList.head? = some (firstChar s.protocol) := by
  cases hprotocol : s.protocol with
  | file => simp [baseUrl, hprotocol, firstChar, Protocol.isHttp]
  | http =>
    rw [baseUrl, hprotocol]
    exact Url.head?_join (by simp [Protocol.text]; rfl) (by decide) _
  | https =>
    rw [baseUrl, hprotocol]
    exact Url.head?_join (by simp [Protocol.text]; rfl) (by decide) _

theorem Indexed.head?_url {c : Catalog} (h : c.Indexed) {r : Resource} (hr : r ∈ c.resources)
    {s : Service} (hs : c.service? r.service = some s) :
    r.url.toList.head? = some (firstChar s.protocol) := by
  rw [h.located r hr s hs]
  refine Url.head?_join s.head?_baseUrl ?_ _
  cases s.protocol <;> rfl

/-- Resources of one location are both on the network or both on disk. -/
theorem Indexed.isHttp_eq {c : Catalog} (h : c.Indexed) {r r' : Resource} (hr : r ∈ c.resources)
    (hr' : r' ∈ c.resources) {s s' : Service} (hs : c.service? r.service = some s)
    (hs' : c.service? r'.service = some s') (hurl : r.url = r'.url) :
    s.protocol.isHttp = s'.protocol.isHttp := by
  have hfirst := h.head?_url hr hs
  rw [hurl, h.head?_url hr' hs'] at hfirst
  exact isHttp_of_firstChar (Option.some.inj hfirst).symm

end Catalog
end MetricRelay
