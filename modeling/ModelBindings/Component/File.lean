import ModelBindings.Component
import ModelBindings.Json.Printer

/-!
The file of component definitions. Names and types are written as they are.
-/

namespace ModelBindings

namespace Component

def header : String := "/* Autogenerated file. Do not edit manually. */\n"

def imports : String :=
  "import \x7b defineComponent, Type as RecsType, World \x7d from \"@dojoengine/recs\";\n"

def block (c : Component) : String :=
  String.join
    ["    ", c.model, ": (() => \x7b\n",
     "      return defineComponent(\n",
     "        world,\n",
     "        ", c.type.text, ",\n",
     "        \x7b\n",
     "          metadata: \x7b\n",
     "            name: ", Json.printString c.model, ",\n",
     "            types: ", Json.printStrings c.types, ",\n",
     "          \x7d,\n",
     "        \x7d\n",
     "      );\n",
     "    \x7d)(),\n"]

end Component

def componentsFile (cs : List Component) : String :=
  String.join
    [Component.header, "\n", Component.imports, "\n",
     "export function defineContractComponents(world: World) \x7b\n",
     "  return \x7b\n",
     String.join (cs.map Component.block),
     "  \x7d;\n",
     "\x7d\n"]

end ModelBindings
