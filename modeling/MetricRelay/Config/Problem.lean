import MetricRelay.Config.Model
/-!
What can be wrong with a configuration that reads well, and what is only worth a warning.
-/
namespace MetricRelay.Config

/-- A field of an auth table. -/
inductive AuthField where
  | headerName | endpoint | tokenPath
  deriving DecidableEq, Repr

def AuthField.key : AuthField → String
  | .headerName => "token_header_key"
  | .endpoint => "token_gen_endpoint"
  | .tokenPath => "token_path_in_response"

/-- What is wrong with the buckets of a histogram. -/
inductive BucketFault where
  | noBounds
  | notIncreasing
  | startNotPositive
  | factorTooSmall
  | noCount
  deriving DecidableEq, Repr

def BucketFault.message : BucketFault → String
  | .noBounds => "bucket list is empty"
  | .notIncreasing => "bucket bounds must be strictly increasing"
  | .startNotPositive => "exponential start must be positive"
  | .factorTooSmall => "exponential factor must be greater than 1"
  | .noCount => "exponential count must be at least 1"

/-- A rule that a configuration breaks. -/
inductive Problem where
  | metricsPathNotRooted (path : String)
  | noWorkers
  | unnamedService
  | repeatedService (service : String)
  | badPort (service : String) (port : Nat)
  | badBaseUrl (service url reason : String)
  | emptyAuthField (owner : String) (field : AuthField)
  | badMetricName (service metric : String)
  | repeatedMetric (service metric : String)
  | conflictingType (metric service : String) (type : MetricType) (firstService : String)
      (firstType : MetricType)
  | unsupportedSummary (service metric : String)
  | bucketChoice (service metric : String)
  | badBuckets (service metric : String) (fault : BucketFault)
  | labelledHistogram (service metric : String)
  | unexpectedBuckets (service metric : String)
  | missingItemPath (service metric : String)
  | badLabelName (service metric label : String)
  | emptySolverPath (owner : String)
  | unknownDialect (owner dialect : String)
  | badMethod (service resource method : String)
  | unknownMetric (service resource metric : String)
  | metricFedTwice (service metric : String)
  | forwarderMetrics (service resource : String)
  deriving DecidableEq, Repr

namespace Problem

/-- The part of a configuration that the rule is about. -/
def kind : Problem → String
  | .metricsPathNotRooted _ | .noWorkers => "settings"
  | .unnamedService | .repeatedService _ | .badPort .. | .badBaseUrl .. => "service"
  | .emptyAuthField .. => "auth"
  | .badMetricName .. | .repeatedMetric .. | .conflictingType .. | .unsupportedSummary ..
  | .bucketChoice .. | .badBuckets .. | .labelledHistogram .. | .unexpectedBuckets ..
  | .missingItemPath .. => "metric"
  | .badLabelName .. => "label"
  | .emptySolverPath _ | .unknownDialect .. => "node_solver"
  | .badMethod .. | .unknownMetric .. | .metricFedTwice .. | .forwarderMetrics .. => "resource"

def message : Problem → String
  | .metricsPathNotRooted path => s!"metrics_path '{path}' must start with '/'"
  | .noWorkers => "scrape.workers must be at least 1"
  | .unnamedService => "Service name must not be empty"
  | .repeatedService service => s!"Service '{service}' is declared more than once"
  | .badPort service port =>
    s!"Service '{service}' has invalid port {Number.text port}, expected 1-65535"
  | .badBaseUrl service url reason =>
    s!"Service '{service}' base URL '{url}' is invalid: {reason}"
  | .emptyAuthField owner field => s!"Auth for '{owner}' is missing {field.key}"
  | .badMetricName service metric =>
    s!"Metric '{metric}' of service '{service}' is not a valid metric name"
  | .repeatedMetric service metric =>
    s!"Metric '{metric}' of service '{service}' is declared more than once"
  | .conflictingType metric service type firstService firstType =>
    s!"Metric '{metric}' of service '{service}' is a {type.title} but service '{firstService}' "
      ++ s!"declares it as a {firstType.title}"
  | .unsupportedSummary service metric =>
    s!"Metric '{metric}' of service '{service}' has unsupported type summary"
  | .bucketChoice service metric =>
    s!"Histogram '{metric}' of service '{service}' needs exactly one of buckets or exponential"
  | .badBuckets service metric fault =>
    s!"Histogram '{metric}' of service '{service}' has invalid buckets: {fault.message}"
  | .labelledHistogram service metric =>
    s!"Histogram '{metric}' of service '{service}' cannot have labels"
  | .unexpectedBuckets service metric =>
    s!"Metric '{metric}' of service '{service}' has bucket settings but is not a histogram"
  | .missingItemPath service metric =>
    s!"Labelled metric '{metric}' of service '{service}' requires options.item_path"
  | .badLabelName service metric label =>
    s!"Metric '{metric}' of service '{service}' has invalid label name '{label}'"
  | .emptySolverPath owner => s!"Node solver for '{owner}' has an empty path"
  | .unknownDialect owner dialect =>
    s!"Node solver for '{owner}' uses unsupported dialect '{dialect}'"
  | .badMethod service resource method =>
    s!"Resource '{resource}' of service '{service}' has invalid method '{method}'"
  | .unknownMetric service resource metric =>
    s!"Resource '{resource}' of service '{service}' references unknown metric '{metric}'"
  | .metricFedTwice service metric =>
    s!"Metric '{metric}' of service '{service}' is listed by more than one resource"
  | .forwarderMetrics service resource =>
    s!"Forwarder '{resource}' of service '{service}' cannot list metrics"

/-- One text for all problems, in order. -/
def summary (problems : List Problem) : String :=
  let count := Number.text problems.length ++ " problem(s)"
  match problems with
  | [] => count
  | _ => count ++ ": " ++ "; ".intercalate (problems.map message)

end Problem

/-- What does not keep a configuration from being used. -/
inductive Warning where
  | mainFileMissing (path : String)
  | noMetricsFile (service : String)
  | noResourcesFile (service : String)
  | fileServiceAuth (service : String)
  | unfedMetric (service metric : String)
  deriving DecidableEq, Repr

namespace Warning

def message : Warning → String
  | .mainFileMissing path =>
    s!"Configuration file not found at {path}, using defaults and environment overrides"
  | .noMetricsFile _ => "No metrics file listed for service"
  | .noResourcesFile _ => "No resources file listed for service"
  | .fileServiceAuth _ => "Auth is ignored for file services"
  | .unfedMetric .. => "Metric is not fed by any resource and will never be scraped"

/-- What the warning is about, by name. -/
def fields : Warning → List (String × String)
  | .mainFileMissing _ => []
  | .noMetricsFile service | .noResourcesFile service | .fileServiceAuth service =>
    [("service", service)]
  | .unfedMetric service metric => [("service", service), ("metric", metric)]

end Warning
end MetricRelay.Config
