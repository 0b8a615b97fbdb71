import MetricRelay.Exposition.Family
/-!
The written form of metric families: one `HELP` line when there is a help text, one `TYPE` line, and
one line for each sample.
-/
namespace MetricRelay.Exposition

/-- Backslashes and line feeds of a help text are escaped. -/
def escapeHelp : List Char → List Char
  | [] => []
  | c :: cs =>
    if c = '\\' then '\\' :: '\\' :: escapeHelp cs
    else if c = '\n' then '\\' :: 'n' :: escapeHelp cs
    else c :: escapeHelp cs

/-- Backslashes, quotes and line feeds of a label value are escaped. -/
def escapeValue : List Char → List Char
  | [] => []
  | c :: cs =>
    if c = '\\' then '\\' :: '\\' :: escapeValue cs
    else if c = '"' then '\\' :: '"' :: escapeValue cs
    else if c = '\n' then '\\' :: 'n' :: escapeValue cs
    else c :: escapeValue cs

def writeLabel (l : Label) : List Char :=
  l.name.toList ++ '=' :: '"' :: escapeValue l.value.toList ++ ['"']

/-- The labels in braces with commas between them, or nothing when there are none. -/
def writeLabels (labels : List Label) : List Char :=
  if labels.isEmpty then []
  else '\x7b' :: List.intercalate [','] (labels.map writeLabel) ++ ['\x7d']

def writeTimestamp : Option Int → List Char
  | none => []
  | some t => ' ' :: (Number.signedText t).toList

def writeSample (s : Sample) : List Char :=
  s.name.toList ++ writeLabels s.labels ++ ' ' :: (Number.valueText s.value).toList
    ++ writeTimestamp s.timestamp

def helpMark : List Char := "# HELP ".toList
def typeMark : List Char := "# TYPE ".toList

def writeHelp (name help : String) : List Char :=
  helpMark ++ name.toList ++ ' ' :: escapeHelp help.toList

def writeKind (name : String) (kind : MetricKind) : List Char :=
  typeMark ++ name.toList ++ ' ' :: kind.text.toList

/-- The lines of a family, without their line feeds. -/
def familyLines (f : Family) : List (List Char) :=
  (match f.help with
    | none => []
    | some help => [writeHelp f.name help])
  ++ writeKind f.name f.kind :: f.samples.map writeSample

def write (families : List Family) : List Char :=
  (families.flatMap familyLines).flatMap (· ++ ['\n'])

def text (families : List Family) : String := String.ofList (write families)

end MetricRelay.Exposition
