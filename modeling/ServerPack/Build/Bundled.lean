import ServerPack.Build.Layout

/-!
The settings document that a build writes into a data directory that has none.
-/

namespace ServerPack.Build

/-- The lines of the bundled settings document. -/
def bundledLines : List String :=
  ["\x7b",
   "  \"placeholder\": \x7b",
   "    \"data\": \x7b",
   "      \"velocity\": \x7b",
   "        \"secret\": \"$(velocity.secret)\"",
   "      \x7d,",
   "      \"network\": \x7b",
   "        \"name\": \"MCPacker Network\",",
   "        \"max_players\": 200",
   "      \x7d,",
   "      \"proxy\": \x7b",
   "        \"bind\": \"0.0.0.0:25577\",",
   "        \"motd\": \"Welcome to $(mcp.network.name)\",",
   "        \"show_max_players\": \"$(mcp.network.max_players)(number)\",",
   "        \"secret\": \"$(mcp.velocity.secret)\"",
   "      \x7d,",
   "      \"server\": \x7b",
   "        \"lobby\": \x7b",
   "          \"name\": \"lobby\",",
   "          \"address\": \"127.0.0.1\",",
   "          \"port\": 30066",
   "        \x7d,",
   "        \"survival\": \x7b",
   "          \"name\": \"survival\",",
   "          \"address\": \"127.0.0.1\",",
   "          \"port\": 30067",
   "        \x7d",
   "      \x7d",
   "    \x7d,",
   "    \"suffixes\": [",
   "      \"-velocity\",",
   "      \"-paper\",",
   "      \"-config\"",
   "    ]",
   "  \x7d",
   "\x7d"]

/-- The bundled settings document; every line is ended. -/
def bundledSettings : Text := bundledLines.flatMap fun line => line.toList ++ ['\n']

/-- The bundled document of a name. -/
def bundled? (name : Text) : Option Text := if name = settingsName then some bundledSettings else none

end ServerPack.Build
