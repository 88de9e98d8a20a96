import ConditionalText.SourceMap.Json
import ConditionalText.SourceMap.Mappings

/-!
# Source maps

A source map, version 3, of an output that comes from a single source (specification, §12.4).
-/

namespace ConditionalText

/-- A source map. -/
structure SourceMap where
  version : Nat
  /-- The name of the output. -/
  file : Option Text
  sources : List Text
  /-- The texts of the sources, if they are part of the map. -/
  sourcesContent : Option (List Text)
  names : List Text
  mappings : Text
  deriving DecidableEq, Repr

namespace SourceMap

/-- How a source map is labelled. -/
structure Labels where
  file : Option Text
  sourceName : Text
  includeContent : Bool
  deriving DecidableEq, Repr

/-- `from_position_map` (§12.4): the source map of an output. -/
def ofOffsetMap (m : OffsetMap) (source output : Text) (labels : Labels) : SourceMap :=
  { version := 3
    file := labels.file
    sources := [labels.sourceName]
    sourcesContent := if labels.includeContent then some [source] else none
    names := []
    mappings := encodeMappings m source output }

/-- `to_json` (§12.4): the JSON text of a source map; what is absent is left out. -/
def toJson (m : SourceMap) : Text :=
  Json.object <|
    [("version".toList, Nat.toDigits 10 m.version)] ++
    (m.file.map fun file => ("file".toList, Json.string file)).toList ++
    [("sources".toList, Json.strings m.sources)] ++
    (m.sourcesContent.map fun texts => ("sourcesContent".toList, Json.strings texts)).toList ++
    [("names".toList, Json.strings m.names), ("mappings".toList, Json.string m.mappings)]

/-- The comment that names the map of an output. -/
def linkComment (mapName : Text) : Text :=
  "//# sourceMappingURL=".toList ++ mapName

end SourceMap

end ConditionalText
