import MetricRelay.Config.Rules
import MetricRelay.Proofs.Catalog.Complete
import MetricRelay.Proofs.Number.Written
import MetricRelay.Proofs.Url

/-!
# Locations as they were checked

The rules look at the location of a web service with all that its base path ends
with, and the catalog keeps it without the slashes at its end. Apart from these
slashes the two are one text, and every resource lies below it.
-/

namespace MetricRelay

namespace Url

theorem join_assoc (base path more : String) :
    join (join base path) more = join base (join path more) := by
  simp only [join, String.toList_ofList, joinChars_assoc]

/-- The location of `path` below a base that ends with no slash: the base itself if the path has no
name, and otherwise the base, one slash, and the path from its first name on. -/
structure Below (base path url : String) : Prop where
  unended : base.toList.getLast? ≠ some '/'
  unstarted : (withoutLeadingSlashes path).toList.head? ≠ some '/'
  unnamed : (∀ c ∈ path.toList, c = '/') → url = base
  named : (∃ c ∈ path.toList, c ≠ '/') → url = base ++ "/" ++ withoutLeadingSlashes path

theorem below_join {base : String} (h : base.toList.getLast? ≠ some '/') (path : String) :
    Below base path (join base path) where
  unended := h
  unstarted := by
    rw [withoutLeadingSlashes, String.toList_ofList]
    exact head?_dropLeading path.toList
  unnamed := by
    intro hslashes
    rw [join, joinChars_of_slashes (dropLeading_eq_nil_iff.mpr hslashes), String.ofList_toList]
  named := by
    rintro ⟨c, hc, hname⟩
    have hne : dropLeading path.toList ≠ [] :=
      fun hnil => hname (dropLeading_eq_nil_iff.mp hnil c hc)
    apply String.toList_injective
    simp only [join, joinChars_of_ne hne, dropTrailing_self h, withoutLeadingSlashes,
      String.toList_append, String.toList_ofList, List.append_assoc]
    rfl

end Url

namespace Catalog

open Config (Definition)

/-! ### The base of a service -/

/-- An origin ends with a digit of its port. -/
theorem Service.getLast?_origin (scheme : String) (s : Service) :
    (scheme ++ s.hostPort).toList.getLast? ≠ some '/' := by
  have hport : (scheme ++ s.hostPort).toList =
      (scheme ++ (s.host ++ ":")).toList ++ Number.digitsOf s.port := by
    simp only [hostPort, Number.text, String.toList_append, String.toList_ofList,
      List.append_assoc]
  intro hslash
  rw [hport, List.getLast?_append_of_ne_nil _ (Number.digitsOf_ne_nil s.port)] at hslash
  have hdigit := Number.isDigit_of_mem_digitsOf (List.mem_of_getLast? hslash)
  exact absurd hdigit (by decide)

/-- The base of a web service is its origin with the base path behind it, cut at the end. -/
theorem Service.baseUrl_of_isHttp {s : Service} (h : s.protocol.isHttp = true) :
    s.baseUrl = Url.withoutTrailingSlashes
      (s.protocol.text ++ "://" ++ s.hostPort ++ "/" ++ Url.withoutLeadingSlashes s.basePath) := by
  have hcut := Url.dropTrailing_joined (s.getLast?_origin (s.protocol.text ++ "://"))
    s.basePath.toList
  have hjoin : s.baseUrl =
      Url.join (s.protocol.text ++ "://" ++ s.hostPort)
        (Url.withoutTrailingSlashes s.basePath) := by
    rw [baseUrl]
    cases hprotocol : s.protocol with
    | file => rw [hprotocol] at h; cases h
    | http | https => rfl
  rw [hjoin, Url.join, Url.withoutTrailingSlashes, Url.withoutTrailingSlashes,
    Url.withoutLeadingSlashes, String.toList_ofList, ← hcut]
  simp only [String.toList_append, String.toList_ofList, List.append_assoc]
  rfl

/-! ### Services in their places -/

theorem service?_foldl {c : Catalog} {id : ServiceId} {s : Service} (h : c.service? id = some s)
    (ds : List Definition) : (ds.foldl Catalog.append c).service? id = some s := by
  induction ds generalizing c with
  | nil => exact h
  | cons d ds ih => exact ih (service?_append h)

theorem exists_service_foldl (c : Catalog) {ds : List Definition} {i : ℕ} {d : Definition}
    (h : ds[i]? = some d) : ∃ c' : Catalog,
      (ds.foldl Catalog.append c).service? ⟨c.services.length + i⟩ =
        some (c'.appendedService d) := by
  induction ds generalizing c i with
  | nil => cases h
  | cons first ds ih =>
    cases i with
    | zero =>
      obtain rfl := Option.some.inj h
      exact ⟨c, service?_foldl (service?_appended c first) ds⟩
    | succ i =>
      obtain ⟨c', hc'⟩ := ih (c.append first) h
      refine ⟨c', ?_⟩
      rw [length_services_append] at hc'
      rw [show c.services.length + (i + 1) = c.services.length + 1 + i by omega]
      exact hc'

/-- What is fetched for a service is what its definition was checked for. -/
structure FetchedAsChecked (c : Catalog) (d : Definition) (s : Service) : Prop where
  checked : ∀ check, d.service.problems check = [] → check d.service.checkedUrl = .ok ()
  base : Url.withoutTrailingSlashes d.service.checkedUrl = s.baseUrl
  resources : ∀ r ∈ c.resources, r.service = s.id → Url.Below s.baseUrl r.uri r.url

theorem check_of_problems {check : Url.Check} {s : Config.Service}
    (hhttp : s.protocol.isHttp = true) (h : s.problems check = []) :
    check s.checkedUrl = .ok () := by
  have hweb : s.webProblems check = [] := by
    simp only [Config.Service.problems, hhttp, if_true, List.append_eq_nil_iff] at h
    exact h.1.2
  rw [Config.Service.webProblems] at hweb
  split at hweb
  · cases hweb
  · split at hweb
    · next hok => exact hok
    · cases hweb

/-- The base of every web service is the location that the rules look at, without the slashes at
its end, and its resources lie below that base. Joining in turn is joining what was joined. -/
theorem fetched_as_checked (ds : List Definition) :
    (∀ i d, ds[i]? = some d → d.service.protocol.isHttp = true →
      ∃ s, (build ds).service? ⟨i⟩ = some s ∧ (build ds).FetchedAsChecked d s) ∧
    ∀ base path more : String,
      Url.join (Url.join base path) more = Url.join base (Url.join path more) := by
  refine ⟨fun i d hd hhttp => ?_, Url.join_assoc⟩
  obtain ⟨c, hs⟩ := exists_service_foldl {} hd
  rw [List.length_nil, Nat.zero_add] at hs
  have hindexed := build_indexed ds
  have hbase : (c.appendedService d).baseUrl =
      Url.withoutTrailingSlashes d.service.checkedUrl := by
    rw [Service.baseUrl_of_isHttp hhttp, Config.Service.checkedUrl, Service.hostPort]
    simp only [String.append_assoc]
    rfl
  refine ⟨c.appendedService d, hs, fun check h => check_of_problems hhttp h, hbase.symm, ?_⟩
  intro r hr hown
  have hid := hindexed.service_at i _ hs
  rw [hindexed.located r hr _ (by rw [hown, hid]; exact hs)]
  apply Url.below_join
  rw [hbase, Url.withoutTrailingSlashes, String.toList_ofList]
  exact Url.getLast?_dropTrailing _

/-- A web service with slashes at both ends of its base path, and one with nothing else there. -/
def slashed : List Definition := [{
    service := ⟨"node", .https, "node.lan", 8443, "//api//v1///", none⟩
    metrics := []
    resources := [⟨"stats", "//stats/", "GET", .api, .json, [], none⟩,
      ⟨"whole", "//", "GET", .api, .json, [], none⟩] }, {
    service := ⟨"bare", .http, "bare.lan", 80, "//", none⟩
    metrics := []
    resources := [⟨"stats", "stats", "GET", .api, .json, [], none⟩] }]

/-- Only slashes inside a path stay as they are. -/
theorem fetched_as_checked_slashed :
    (∃ d s, slashed[0]? = some d ∧ d.service.protocol.isHttp = true ∧
      (build slashed).service? ⟨0⟩ = some s ∧ (build slashed).FetchedAsChecked d s ∧
      d.service.checkedUrl = "https://node.lan:8443/api//v1///" ∧
      s.baseUrl = "https://node.lan:8443/api//v1") ∧
    (∃ d s, slashed[1]? = some d ∧ d.service.protocol.isHttp = true ∧
      (build slashed).service? ⟨1⟩ = some s ∧ (build slashed).FetchedAsChecked d s ∧
      d.service.checkedUrl = "http://bare.lan:80/" ∧ s.baseUrl = "http://bare.lan:80") ∧
    (build slashed).resources.map (·.url) = ["https://node.lan:8443/api//v1/stats/",
      "https://node.lan:8443/api//v1", "http://bare.lan:80/stats"] := by
  obtain ⟨s, hs, hfetched⟩ := (fetched_as_checked slashed).1 0 _ rfl rfl
  obtain ⟨s', hs', hfetched'⟩ := (fetched_as_checked slashed).1 1 _ rfl rfl
  refine ⟨⟨_, s, rfl, rfl, hs, hfetched, by decide, ?_⟩,
    ⟨_, s', rfl, rfl, hs', hfetched', by decide, ?_⟩, by decide⟩
  · rw [← hfetched.base]
    decide
  · rw [← hfetched'.base]
    decide

end Catalog
end MetricRelay
