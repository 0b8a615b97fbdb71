import MetricRelay.Proofs.Exposition.Samples
import MetricRelay.Proofs.Scrape.Declared
import MetricRelay.Proofs.Text.Utf8

/-!
# The body of a scrape read by another exporter

The body of a scrape is a text that this program reads itself. Whatever the
sources have answered and whatever names and descriptions the configuration
has, the body is read without a fault, and the samples that are found are those
of the gauges and of the output.
-/

namespace MetricRelay.Exporter

variable {check : Url.Check} {c : Config} {e : Exporter}

theorem Consistent.readText_body (hvalid : c.problems check = []) (h : Consistent c.catalog e) :
    ∃ families, Exposition.readText e.scrape.1.body.toList = .ok families ∧
      (families.flatMap (·.samples)).Perm
        (e.gauges.families.flatMap (·.samples) ++
          e.composition.output.families.flatMap (·.samples)) := by
  rw [scrape_body, ← Exposition.text_append, ← List.flatMap_append]
  exact Exposition.readText_samples (h.printable_families hvalid)

/-- Of a valid configuration, the bytes of every scrape are read, their samples are exactly those of
the gauges and of the output, and so they can be forwarded under any identity. -/
theorem body_reads_back (hvalid : c.problems check = []) (h : Reached c.catalog e) :
    ∃ families, Exposition.read (Text.Utf8.encode e.scrape.1.body) = .ok families ∧
      (families.flatMap (·.samples)).Perm
        (e.gauges.families.flatMap (·.samples) ++
          e.composition.output.families.flatMap (·.samples)) ∧
      ∀ identity, ∃ forwarded,
        relabel identity (Text.Utf8.encode e.scrape.1.body) = .ok forwarded := by
  have hconsistent := h.consistent (Catalog.build_indexed c.definitions) (Config.nodup_plan hvalid)
  obtain ⟨families, htext, hsamples⟩ := hconsistent.readText_body hvalid
  have hread : Exposition.read (Text.Utf8.encode e.scrape.1.body) = .ok families := by
    simp only [Exposition.read, Text.Utf8.decode_encode, htext]
  refine ⟨families, hread, hsamples, ?_⟩
  intro identity
  rw [relabel, hread]
  exact ⟨_, rfl⟩

/-- A service and a description with all the characters that have to be escaped. -/
def quotedNames : Config where
  settings := ⟨.default, .default, .default⟩
  definitions := [{
    service := ⟨"the \"disk\"\n", .file, "back\\slash", 0, "/srv", none⟩
    metrics := [⟨"load", .gauge, " # TYPE load\n\\ \r", ⟨"jsonpath", "/value"⟩, [], none, none⟩]
    resources := [⟨"stats", "stats.json", "GET", .api, .json, ["load"], none⟩] }]

def withQuotedNames : Exporter :=
  let content := Text.Utf8.ascii "\x7b\"value\": 1\x7d".toList
  .start {} quotedNames.catalog
    { workingDirectory := "/"
      kind := fun _ => .ok (.file content.length)
      read := fun _ => .ok content } {}

/-- The second scrape of that exporter is read back, too. -/
theorem quotedNames_reads_back : quotedNames.problems Url.hosted = [] ∧
    ∃ families, Exposition.read (Text.Utf8.encode withQuotedNames.scrape.2.scrape.1.body) =
        .ok families ∧
      (families.flatMap (·.samples)).Perm
        (withQuotedNames.scrape.2.gauges.families.flatMap (·.samples) ++
          withQuotedNames.scrape.2.composition.output.families.flatMap (·.samples)) ∧
      ∀ identity, ∃ forwarded, relabel identity
        (Text.Utf8.encode withQuotedNames.scrape.2.scrape.1.body) = .ok forwarded := by
  have hvalid : quotedNames.problems Url.hosted = [] := by decide
  have hreached : Reached quotedNames.catalog withQuotedNames := .start ..
  exact ⟨hvalid, body_reads_back hvalid hreached.scrape⟩

end MetricRelay.Exporter
