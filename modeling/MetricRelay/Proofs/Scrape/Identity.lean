import MetricRelay.Proofs.Relabel
import MetricRelay.Proofs.Scrape.Duel
import MetricRelay.Proofs.Scrape.Run

/-!
# The identity of forwarded samples

A forwarded body is stamped once for each location, with the identity of the
service whose task loads it. So the samples of a forwarder carry the identity of
its own service in every run exactly if no two services share the location of a
forwarder.
-/

namespace MetricRelay

open Catalog (Service Resource Planned)

def Catalog.ForwardersApart (c : Catalog) : Prop :=
  ∀ r ∈ c.resources, ∀ r' ∈ c.resources, r.kind = .forwarder → r'.kind = .forwarder →
    r.url = r'.url → r.service = r'.service

instance (c : Catalog) : Decidable c.ForwardersApart :=
  inferInstanceAs (Decidable (∀ r ∈ c.resources, ∀ r' ∈ c.resources, _))

namespace Race

/-- What a successful forwarder contributes is marked with the identity of the service that its
task names. -/
def KeepsIdentity (c : Catalog) (race : Race) : Prop :=
  ∀ service resource finished families,
    race.Reports ⟨.forward service resource, finished, .ok (.families families)⟩ →
      ∃ s, c.service? service = some s ∧ s.identity.Marks families

variable {g : Setting}

theorem service_eq_of_apart {c : Catalog} (hapart : c.ForwardersApart) {t t' : ScrapeTask}
    {s s' : Service} {r r' : Resource} (hp : c.Planned t s r) (hp' : c.Planned t' s' r')
    (ht : IsForward t) (ht' : IsForward t') (hurl : r.url = r'.url) : s = s' := by
  have hkind : ∀ {t : ScrapeTask} {s : Service} {r : Resource}, c.Planned t s r → IsForward t →
      r.kind = .forwarder := by
    intro t s r hp ht
    cases t with
    | forward service resource => exact hp.forward
    | metric service resource id => cases ht
  have hservice := hapart r (Catalog.mem_of_resource? hp.resource) r'
    (Catalog.mem_of_resource? hp'.resource) (hkind hp ht) (hkind hp' ht') hurl
  have howner := hp.owner
  rw [hservice] at howner
  exact Option.some.inj (howner.symm.trans hp'.owner)

def concluded (s : Service) (r : Resource) (answer : Answer) : Except ScrapeError TaskValue :=
  ((Snapshot.expositionShelf.decodeAnswer s r answer).mapError .fetch).bind fun families =>
    .ok (.families families)

/-- A forwarder that succeeds has relabelled a body for the service that has loaded it. -/
theorem relabel_of_concluded {s : Service} {r : Resource} (answer : Answer)
    {families : List Family} (h : .ok (.families families) = concluded s r answer) :
    ∃ body, relabel s.identity body = .ok families := by
  cases answer with
  | error e => cases h
  | ok body =>
    have hmade : concluded s r (.ok body) =
        (((relabel s.identity body).mapError .decode).mapError .fetch).bind fun families =>
          .ok (.families families) := rfl
    rw [hmade] at h
    cases hrelabel : relabel s.identity body with
    | error e =>
      rw [hrelabel] at h
      cases h
    | ok made =>
      rw [hrelabel] at h
      cases h
      exact ⟨body, hrelabel⟩

/-- The families are marked with the identity of the service that has loaded them. -/
theorem marks_of_concluded {s : Service} {r : Resource} {answer : Answer} {families : List Family}
    (h : .ok (.families families) = concluded s r answer) : s.identity.Marks families := by
  obtain ⟨body, hrelabel⟩ := relabel_of_concluded answer h
  exact Identity.marks_of_relabel hrelabel

/-- Where services keep their forwarders apart, no run mixes up their identities. -/
theorem keepsIdentity_of_apart (hindexed : g.catalog.Indexed) (hapart : g.catalog.ForwardersApart)
    {race : Race} (hrace : Reachable g race) : race.KeepsIdentity g.catalog := by
  intro service resource finished families hreport
  obtain ⟨s, r, hp, value, ⟨loader, s', r', answer, hsort, hp', hurl, -, rfl⟩, hresult⟩ :=
    (hrace.sound hindexed (honest_trivial g)).reports _ hreport
  obtain rfl := service_eq_of_apart hapart hp' hp hsort rfl hurl
  exact ⟨s', hp.service, marks_of_concluded hresult⟩

/-- A planned forwarder enters in the world that serves its location. -/
theorem entrant_serving (hindexed : g.catalog.Indexed)
    (hrule : ∀ job w, w.catalog = g.catalog → w.Furnished → g.rule job w) {r : Resource}
    (hr : r ∈ g.catalog.resources) (hkind : r.kind = .forwarder) (url : String)
    (response : Response) (content : Text.Bytes) :
    ∃ s, g.catalog.service? r.service = some s ∧ s.id = r.service ∧
      Entrant g (.forward r.service r.id) s r (.serving g.catalog url response content) := by
  obtain ⟨s, hs, hid, hplanned⟩ := hindexed.mem_plan hr
  obtain ⟨hmem, hp⟩ := hplanned (.forward r.service r.id) (by simp [Catalog.tasksOf, hkind])
  refine ⟨s, hs, hid, hmem, hp, rfl, ?_⟩
  intro job snapshots _
  exact hrule job _ rfl (World.serving_furnished ..)

/-- Where they do not, some run gives a service the samples of another one. -/
theorem exists_mixed (hindexed : g.catalog.Indexed)
    (hnames : ∀ s ∈ g.catalog.services, ∀ s' ∈ g.catalog.services, s.name = s'.name → s = s')
    (hrule : ∀ job w, w.catalog = g.catalog → w.Furnished → g.rule job w)
    (hshared : ¬ g.catalog.ForwardersApart) :
    ∃ race, Reachable g race ∧ ¬ race.KeepsIdentity g.catalog := by
  simp only [Catalog.ForwardersApart, not_forall] at hshared
  obtain ⟨r, hr, r', hr', hkind, hkind', hurl, hne⟩ := hshared
  obtain ⟨s, hs, hid, hentrant⟩ :=
    entrant_serving hindexed hrule hr hkind r.url (.body oneSample) oneSample
  obtain ⟨s', hs', hid', hentrant'⟩ :=
    entrant_serving hindexed hrule hr' hkind' r.url (.body oneSample) oneSample
  obtain ⟨families, hrelabel, f, hf, sample, hsample⟩ := relabel_oneSample s.identity
  have htasks : ScrapeTask.forward r.service r.id ≠ .forward r'.service r'.id := by
    intro heq
    exact hne (ScrapeTask.forward.inj heq).1
  obtain ⟨race, hrace, hreport⟩ := overtaken Snapshot.expositionShelf_lawful (fun _ => rfl)
    hentrant hentrant' htasks hurl (turnsAt_forward g.catalog r.service r.id)
    (turnsAt_forward g.catalog r'.service r'.id) (fun _ => rfl)
    fun now caller => World.serving_turn hindexed s r oneSample now caller
  have hconcluded : concluded s r (.ok oneSample) = .ok (.families families) := by
    simp [concluded, Snapshot.Shelf.decodeAnswer, Snapshot.expositionShelf, Except.bind,
      Except.mapError, hrelabel]
  change race.Reports ⟨_, 0, concluded s r (.ok oneSample)⟩ at hreport
  rw [hconcluded] at hreport
  refine ⟨race, hrace, ?_⟩
  intro hkeeps
  obtain ⟨owner, howner, hmarks⟩ := hkeeps _ _ _ _ hreport
  obtain rfl := Option.some.inj (howner.symm.trans hs')
  have hname : s.name = owner.name :=
    (Identity.marks_of_relabel hrelabel).job_eq hmarks hf hsample
  have hsame := hnames s (List.mem_of_getElem? hs) owner (List.mem_of_getElem? hs') hname
  exact hne (by rw [← hid, ← hid', hsame])

/-- The samples of the forwarders of a valid configuration keep the identity of their own services
in every run, whatever the sources answer, exactly if the configuration keeps the forwarders of
different services apart. -/
theorem keepsIdentity_iff_apart {check : Url.Check} {c : Config} (hvalid : c.problems check = [])
    (hcatalog : g.catalog = c.catalog)
    (hrule : ∀ job w, w.catalog = c.catalog → w.Furnished → g.rule job w) :
    (∀ race, Reachable g race → race.KeepsIdentity c.catalog) ↔ c.catalog.ForwardersApart := by
  have hindexed : g.catalog.Indexed := hcatalog ▸ Catalog.build_indexed c.definitions
  rw [← hcatalog] at hrule ⊢
  constructor
  · intro hkeeps
    by_contra hshared
    have hnames : ∀ s ∈ g.catalog.services, ∀ s' ∈ g.catalog.services,
        s.name = s'.name → s = s' := by
      rw [hcatalog]
      exact fun s hs s' hs' hname => Config.service_eq_of_name hvalid hs hs' hname
    obtain ⟨race, hrace, hmixed⟩ := exists_mixed hindexed hnames hrule hshared
    exact hmixed (hkeeps race hrace)
  · intro hapart race hrace
    exact keepsIdentity_of_apart hindexed hapart hrace

/-! ### Two services of files -/

def fileService (name directory : String) : Config.Definition where
  service := {
    name, protocol := .file, host := "localhost", port := 0, basePath := directory, auth := none }
  metrics := []
  resources := [{
    name := "node", uri := "node.prom", method := "GET", kind := .forwarder, decoder := .prometheus
    metrics := [], auth := none }]

def fileServices (first second : String) : Config where
  settings := ⟨.default, .default, .default⟩
  definitions := [fileService "first" first, fileService "second" second]

/-- The first scrape of a catalog, with jobs from number zero on, in the worlds of an exporter. -/
def firstScrape (c : Catalog) : Setting := ⟨c, 0, 0, fun _ w => w.Furnished⟩

/-- Two directories keep two services apart. -/
theorem keepsIdentity_of_two_directories :
    (fileServices "/var/first" "/var/second").problems Url.hosted = [] ∧
      ∀ race, Reachable (firstScrape (fileServices "/var/first" "/var/second").catalog) race →
        race.KeepsIdentity (fileServices "/var/first" "/var/second").catalog := by
  have hvalid : (fileServices "/var/first" "/var/second").problems Url.hosted = [] := by decide
  refine ⟨hvalid, (keepsIdentity_iff_apart hvalid rfl fun _ _ _ h => h).mpr ?_⟩
  decide +kernel

/-- In one directory they get mixed up. -/
theorem not_keepsIdentity_of_one_directory :
    (fileServices "/var/both" "/var/both").problems Url.hosted = [] ∧
      ∃ race, Reachable (firstScrape (fileServices "/var/both" "/var/both").catalog) race ∧
        ¬ race.KeepsIdentity (fileServices "/var/both" "/var/both").catalog := by
  have hvalid : (fileServices "/var/both" "/var/both").problems Url.hosted = [] := by decide
  refine ⟨hvalid, exists_mixed (Catalog.build_indexed _) ?_ (fun _ _ _ h => h) ?_⟩
  · exact fun s hs s' hs' hname => Config.service_eq_of_name hvalid hs hs' hname
  · decide +kernel

end Race

/-! ### Scrapes of an exporter -/

namespace Exporter

/-- In particular a scrape of an exporter puts no other identity on what its forwarders bring. -/
theorem reports_keepIdentity {e : Exporter} (hindexed : e.catalog.Indexed)
    (hapart : e.catalog.ForwardersApart) (horderly : e.IsOrderly) {service : ServiceId}
    {resource : ResourceId} {finished : Nat} {families : List Family}
    (hreport : ⟨.forward service resource, finished, .ok (.families families)⟩ ∈ e.reports) :
    ∃ s, e.catalog.service? service = some s ∧ s.identity.Marks families := by
  have hupheld : Upheld (e.setting fun _ _ => True) fun _ => True :=
    ⟨fun _ _ _ _ _ => trivial, fun _ _ _ => trivial⟩
  rcases e.reports_told hindexed horderly hupheld trivial _ hreport with
    ⟨race, hrace, hgiven⟩ | hlate | hclosed
  · exact Race.keepsIdentity_of_apart (g := e.setting fun _ _ => True) hindexed hapart hrace
      _ _ _ _ hgiven
  · cases hlate
  · cases hclosed

end Exporter
end MetricRelay
